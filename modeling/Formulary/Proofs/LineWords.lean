import Formulary.Command
import Formulary.Proofs.TrimmedText

namespace Formulary

section Words

variable {u v w text : List Char}

theorem words_append_space {c : Char} (hc : isSpace c = true) (u v : List Char) :
    words (u ++ c :: v) = words u ++ words v := by
  rw [words, List.splitOnP_append_cons u v hc, List.filter_append]
  rfl

theorem words_of_spaces (h : ∀ c ∈ u, isSpace c = true) : words u = [] := by
  induction u with
  | nil => rfl
  | cons c rest ih =>
    obtain ⟨hc, hrest⟩ := List.forall_mem_cons.mp h
    exact (words_append_space hc [] rest).trans (ih hrest)

theorem words_spaces_append (h : ∀ c ∈ u, isSpace c = true) (w : List Char) :
    words (u ++ w) = words w := by
  induction u with
  | nil => rfl
  | cons c rest ih =>
    obtain ⟨hc, hrest⟩ := List.forall_mem_cons.mp h
    exact (words_append_space hc [] (rest ++ w)).trans (ih hrest)

theorem words_append_spaces (h : ∀ c ∈ v, isSpace c = true) (w : List Char) :
    words (w ++ v) = words w := by
  cases v with
  | nil => rw [List.append_nil]
  | cons c rest =>
    obtain ⟨hc, hrest⟩ := List.forall_mem_cons.mp h
    rw [words_append_space hc, words_of_spaces hrest, List.append_nil]

theorem words_trim (text : List Char) : words (trim isSpace text) = words text := by
  obtain ⟨u, v, h, hu, hv⟩ := trim_sub isSpace text
  calc words (trim isSpace text) = words (u ++ trim isSpace text) := (words_spaces_append hu _).symm
    _ = words (u ++ trim isSpace text ++ v) := (words_append_spaces hv _).symm
    _ = words text := by rw [← h]

theorem words_single (h : ∀ c ∈ w, isSpace c = false) (hne : w ≠ []) : words w = [w] := by
  rw [words, List.splitOnP_eq_singleton h]
  simp [hne]

theorem splitSpace_cases (text : List Char) :
    (∀ c ∈ (splitSpace text).1, isSpace c = false) ∧
      ((splitSpace text).1 = text ∧ (splitSpace text).2 = none ∨
        ∃ c rest, isSpace c = true ∧ text = (splitSpace text).1 ++ c :: rest ∧
          (splitSpace text).2 = some rest) := by
  have hfirst : ∀ c ∈ text.takeWhile fun c => !isSpace c, isSpace c = false := fun c hc => by
    simpa using List.mem_takeWhile_imp hc
  have htext := List.takeWhile_append_dropWhile (p := fun c => !isSpace c) (l := text)
  unfold splitSpace
  cases hd : text.dropWhile fun c => !isSpace c with
  | nil =>
    rw [hd, List.append_nil] at htext
    rw [htext] at hfirst
    exact ⟨hfirst, Or.inl ⟨rfl, rfl⟩⟩
  | cons c rest =>
    have hc := List.head?_dropWhile_not (fun c => !isSpace c) text
    rw [hd] at hc htext
    exact ⟨hfirst, Or.inr ⟨c, rest, by simpa using hc, htext.symm, rfl⟩⟩

/-- The part before the first space is the first word, and the other words come after it. -/
theorem words_splitSpace (h : (splitSpace text).1 ≠ []) :
    words text = (splitSpace text).1 :: words ((splitSpace text).2.getD []) := by
  obtain ⟨hfirst, ⟨ht, hn⟩ | ⟨c, rest, hc, ht, hs⟩⟩ := splitSpace_cases text
  · rw [ht] at h hfirst
    rw [hn, ht]
    exact words_single hfirst h
  · rw [hs, ← List.singleton_append, ← words_single hfirst h, Option.getD_some,
      ← words_append_space hc, ← ht]

theorem not_isSpace_of_trim {c : Char} {rest : List Char} (h : trim isSpace text = c :: rest) :
    isSpace c = false := by
  obtain ⟨v, hv, _⟩ := trimEnd_sub isSpace (text.dropWhile isSpace)
  have hc := List.head?_dropWhile_not isSpace text
  rw [hv, ← trim, h] at hc
  simpa using hc

/-- A trimmed text that has nothing before its first space is empty. -/
theorem words_of_splitSpace_nil (h : (splitSpace (trim isSpace text)).1 = []) :
    words text = [] := by
  rw [← words_trim]
  obtain ⟨_, ⟨ht, _⟩ | ⟨c, rest, hc, ht, _⟩⟩ := splitSpace_cases (trim isSpace text)
  · rw [← ht, h]
    rfl
  · rw [h, List.nil_append] at ht
    simp [not_isSpace_of_trim ht] at hc

end Words

/-- The words of a line. -/
def lineWords (line : String) : List String := (words line.toList).map String.ofList

namespace Command

/-- The words of the lines that stand for a command. -/
inductive Spelled : List String → Command → Prop
  | blank : Spelled [] .blank
  | exit (rest : List String) : Spelled ("exit" :: rest) .exit
  | help (rest : List String) : Spelled ("help" :: rest) .help
  | clear (rest : List String) : Spelled ("clear" :: rest) .clear
  | create {name : String} (source : String) : isName name.toList = true →
    Spelled ("create" :: name :: lineWords source) (.create name source)
  | compile (name : String) : Spelled ["compile", name] (.compile name)
  | set {word : String} {value : Float} (name argument : String) :
    readNumber? word.toList = some value →
    Spelled ["set", name, argument, word] (.set name argument value)
  | eval (name : String) : Spelled ["eval", name] (.eval name)
  | evalCompiled (name : String) : Spelled ["eval-compiled", name] (.evalCompiled name)
  | evalIl (name : String) : Spelled ["eval-il", name] (.evalCompiled name)
  | list (name : String) : Spelled ["list", name] (.list name)

variable {rest : List Char} {c : Command}

theorem readName_map_eq_ok {command : String} {f : String → Command}
    (h : (readName command rest).map f = .ok c) :
    ∃ name, (words rest).map String.ofList = [name] ∧ c = f name := by
  unfold readName at h
  split at h
  next word hw =>
    obtain rfl := Except.ok.inj h
    exact ⟨String.ofList word, by rw [hw]; rfl, rfl⟩
  next => cases h

theorem readSet_spelled (h : readSet rest = .ok c) :
    c.Spelled ("set" :: (words rest).map String.ofList) := by
  unfold readSet at h
  split at h
  next name argument word hw =>
    cases hn : readNumber? word with
    | none => simp [hn] at h
    | some value =>
      simp only [hn, Except.ok.injEq] at h
      subst h
      rw [hw]
      exact .set _ _ (by rw [String.toList_ofList, hn])
  next => cases h

theorem readCreate_spelled (h : readCreate rest = .ok c) :
    c.Spelled ("create" :: (words rest).map String.ofList) := by
  unfold readCreate at h
  split at h
  next => cases h
  next name source hs =>
    split at h
    next hn =>
      obtain rfl := Except.ok.inj h
      have hne : (splitSpace rest).1 ≠ [] := by
        rintro he
        rw [hs] at he
        subst he
        cases hn
      rw [words_splitSpace hne, hs]
      have hname : isName (String.ofList name).toList = true := by rwa [String.toList_ofList]
      have spelled := Spelled.create (.ofList (trim isSpace source)) hname
      rwa [lineWords, String.toList_ofList, words_trim] at spelled
    next => cases h

theorem lineWords_of_splitSpace {line : String} {first : List Char} {tail : Option (List Char)}
    (h : splitSpace (trim isSpace line.toList) = (first, tail)) (hne : first ≠ []) :
    lineWords line =
      String.ofList first :: (words (trim isSpace (tail.getD []))).map String.ofList := by
  rw [lineWords, ← words_trim line.toList, words_splitSpace (by rwa [h]), h, words_trim]
  rfl

/-- A line is read as a command only when its words are those of the command. -/
theorem read_spelled {line : String} (h : read line = .ok c) : c.Spelled (lineWords line) := by
  unfold read at h
  cases hs : splitSpace (trim isSpace line.toList) with
  | mk first tail =>
    rw [hs] at h
    by_cases hne : first = []
    · subst hne
      have hw : lineWords line = [] := by
        rw [lineWords, words_of_splitSpace_nil (by rw [hs])]
        rfl
      obtain rfl := Except.ok.inj h
      rw [hw]
      exact .blank
    rw [lineWords_of_splitSpace hs hne]
    simp only at h
    split at h
    next he => exact absurd (congrArg String.toList he) (by simpa using hne)
    next he => cases h; rw [he]; exact .exit _
    next he => cases h; rw [he]; exact .help _
    next he => cases h; rw [he]; exact .clear _
    next he => rw [he]; exact readCreate_spelled h
    next he =>
      obtain ⟨name, hw, rfl⟩ := readName_map_eq_ok h
      rw [he, hw]
      exact .compile name
    next he => rw [he]; exact readSet_spelled h
    next he =>
      obtain ⟨name, hw, rfl⟩ := readName_map_eq_ok h
      rw [he, hw]
      exact .eval name
    next he =>
      obtain ⟨name, hw, rfl⟩ := readName_map_eq_ok h
      rw [he, hw]
      exact .evalCompiled name
    next he =>
      obtain ⟨name, hw, rfl⟩ := readName_map_eq_ok h
      rw [he, hw]
      exact .evalIl name
    next he =>
      obtain ⟨name, hw, rfl⟩ := readName_map_eq_ok h
      rw [he, hw]
      exact .list name
    next => cases h

section OfWords

variable {line word name : String}

theorem readName_of_words {command : String}
    (h : (words rest).map String.ofList = [name]) : readName command rest = .ok name := by
  obtain ⟨text, hw, rfl⟩ := List.map_eq_singleton_iff.mp h
  rw [readName, hw]

/-- A line that has a word is read by its first one, with the others in the rest. -/
theorem split_of_words {others : List String} (h : lineWords line = word :: others) :
    ∃ first tail, splitSpace (trim isSpace line.toList) = (first, tail) ∧
      String.ofList first = word ∧
      (words (trim isSpace (tail.getD []))).map String.ofList = others := by
  cases hs : splitSpace (trim isSpace line.toList) with
  | mk first tail =>
    by_cases hne : first = []
    · have hnil : words line.toList = [] := words_of_splitSpace_nil (by rw [hs, hne])
      simp [lineWords, hnil] at h
    · rw [lineWords_of_splitSpace hs hne] at h
      obtain ⟨hword, hothers⟩ := List.cons.inj h
      exact ⟨first, tail, rfl, hword, hothers⟩

theorem read_compile_of_words (h : lineWords line = ["compile", name]) :
    read line = .ok (.compile name) := by
  obtain ⟨first, tail, hs, hword, hname⟩ := split_of_words h
  simp [read, hs, hword, readName_of_words hname, Except.map]

theorem read_eval_of_words (h : lineWords line = ["eval", name]) :
    read line = .ok (.eval name) := by
  obtain ⟨first, tail, hs, hword, hname⟩ := split_of_words h
  simp [read, hs, hword, readName_of_words hname, Except.map]

theorem read_evalCompiled_of_words
    (h : lineWords line = ["eval-compiled", name] ∨ lineWords line = ["eval-il", name]) :
    read line = .ok (.evalCompiled name) := by
  rcases h with h | h
  · obtain ⟨first, tail, hs, hword, hname⟩ := split_of_words h
    simp [read, hs, hword, readName_of_words hname, Except.map]
  · obtain ⟨first, tail, hs, hword, hname⟩ := split_of_words h
    simp [read, hs, hword, readName_of_words hname, Except.map]

theorem read_list_of_words (h : lineWords line = ["list", name]) :
    read line = .ok (.list name) := by
  obtain ⟨first, tail, hs, hword, hname⟩ := split_of_words h
  simp [read, hs, hword, readName_of_words hname, Except.map]

theorem readSet_of_words {argument number : String} {value : Float}
    (h : (words rest).map String.ofList = [name, argument, number])
    (hvalue : readNumber? number.toList = some value) :
    readSet rest = .ok (.set name argument value) := by
  have hw : words rest = [name.toList, argument.toList, number.toList] := by
    simpa using congrArg (List.map String.toList) h
  simp [readSet, hw, hvalue]

theorem read_set_of_words {argument number : String} {value : Float}
    (h : lineWords line = ["set", name, argument, number])
    (hvalue : readNumber? number.toList = some value) :
    read line = .ok (.set name argument value) := by
  obtain ⟨first, tail, hs, hword, hrest⟩ := split_of_words h
  simp [read, hs, hword, readSet_of_words hrest hvalue]

end OfWords

/-- The first words that a command may have. -/
def verbs : Command → List String
  | .blank => [""]
  | .exit => ["exit"]
  | .help => ["help"]
  | .clear => ["clear"]
  | .create .. => ["create"]
  | .compile _ => ["compile"]
  | .set .. => ["set"]
  | .eval _ => ["eval"]
  | .evalCompiled _ => ["eval-compiled", "eval-il"]
  | .list _ => ["list"]

/-- The formula that a command is about. -/
def target? : Command → Option String
  | .blank | .exit | .help | .clear => none
  | .create name _ | .compile name | .set name .. | .eval name | .evalCompiled name | .list name =>
    some name

theorem Spelled.head_mem_verbs {ws : List String} (h : c.Spelled ws) : ws.headD "" ∈ c.verbs := by
  cases h <;> simp [verbs]

theorem Spelled.getElem?_one {ws : List String} (h : c.Spelled ws) {name : String}
    (ht : c.target? = some name) : ws[1]? = some name := by
  cases h <;> simp_all [target?]

theorem Spelled.create_words {ws : List String} {name source : String}
    (h : (Command.create name source).Spelled ws) :
    ws = "create" :: name :: lineWords source ∧ isName name.toList = true := by
  cases h with
  | create source hn => exact ⟨rfl, hn⟩

theorem Spelled.set_words {ws : List String} {name argument : String} {value : Float}
    (h : (Command.set name argument value).Spelled ws) :
    ∃ word, ws = ["set", name, argument, word] ∧ readNumber? word.toList = some value := by
  cases h with
  | set name argument hv => exact ⟨_, rfl, hv⟩

theorem Spelled.compile_words {ws : List String} {name : String}
    (h : (Command.compile name).Spelled ws) : ws = ["compile", name] := by
  cases h
  rfl

end Command

/-- The first word of a line, or nothing. -/
def verb (line : String) : String := (lineWords line).headD ""

/-- The second word of a line, which names a formula in all commands that are about one. -/
def target? (line : String) : Option String := (lineWords line)[1]?

theorem verb_mem_verbs {line : String} {c : Command} (h : Command.read line = .ok c) :
    verb line ∈ c.verbs :=
  (Command.read_spelled h).head_mem_verbs

theorem target?_of_read {line name : String} {c : Command} (h : Command.read line = .ok c)
    (ht : c.target? = some name) : target? line = some name :=
  (Command.read_spelled h).getElem?_one ht

end Formulary
