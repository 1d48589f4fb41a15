import Formulary.Proofs.ArgumentHistory
import Formulary.Proofs.PlainNumber
import Formulary.Proofs.RegularFormula
import Formulary.Proofs.SessionDefinitions

namespace Formulary

/-! A text that has no spaces is one word of the line that it stands in. -/

def Unspaced (text : String) : Prop := text.toList ≠ [] ∧ ∀ c ∈ text.toList, isSpace c = false

section Words

variable {name argument number : String}

theorem unspaced_of_isName (h : isName name.toList = true) : Unspaced name := by
  obtain ⟨c, rest, hname, _⟩ := isName_head h
  exact ⟨by simp [hname], fun c hc => isSpace_of_name (isName_chars h c hc)⟩

theorem unspaced_plainNumber {x : Float} (h : x.isNaN = false) : Unspaced (plainNumber x) :=
  plainNumber_word h

theorem Unspaced.not_mem_newline (h : Unspaced name) : '\n' ∉ name.toList := by
  intro hc
  exact absurd (h.2 _ hc) (by decide)

theorem words_unspaced (h : Unspaced name) : words name.toList = [name.toList] :=
  words_single h.2 h.1

theorem lineWords_append (before after : String) :
    lineWords (before ++ " " ++ after) = lineWords before ++ lineWords after := by
  have hspace : (before ++ " " ++ after).toList = before.toList ++ ' ' :: after.toList := by simp
  rw [lineWords, hspace, words_append_space rfl, List.map_append]
  rfl

theorem lineWords_unspaced (h : Unspaced name) : lineWords name = [name] := by
  rw [lineWords, words_unspaced h, List.map_singleton, String.ofList_toList]

theorem lineWords_list (h : Unspaced name) : lineWords ("list " ++ name) = ["list", name] := by
  have hwords : lineWords "list" = ["list"] := by decide
  have hline := lineWords_append "list" name
  rwa [hwords, lineWords_unspaced h] at hline

theorem lineWords_set (hname : Unspaced name) (hargument : Unspaced argument)
    (hnumber : Unspaced number) :
    lineWords ("set " ++ name ++ " " ++ argument ++ " " ++ number) =
      ["set", name, argument, number] := by
  have hwords : lineWords "set" = ["set"] := by decide
  have hset := lineWords_append "set" name
  rw [hwords, lineWords_unspaced hname] at hset
  rw [lineWords_append, lineWords_append, lineWords_unspaced hargument,
    lineWords_unspaced hnumber]
  exact congrArg (· ++ [argument] ++ [number]) hset

end Words

/-- The names of the bindings can be written in a line, and their values can be set. -/
structure Bindings.Writable (b : Bindings) : Prop where
  named : ∀ name ∈ b.names, isName name.toList = true
  number : ∀ v ∈ b.values, v.isNaN = false

namespace Formula

variable {f g : Formula} {name : String} {value : Float}

theorem parse_writable {entries : List (String × Extension)} {source : String}
    (h : Formula.parse (.ofExtensions entries) source = .ok f) : f.arguments.Writable := by
  have hregular := Formula.parse_nodes h
  refine ⟨fun name hname => ?_, fun v hv => ?_⟩
  · obtain ⟨slot, hnode⟩ := hregular.occurs name hname
    exact (hregular.node _ hnode).1
  · rw [(Formula.parse_fresh h).2.2 v hv]
    rfl

theorem assign_writable (hf : f.arguments.Writable) (h : f.assign name value = .ok g) :
    g.arguments.Writable := by
  obtain ⟨hnumber, slot, arguments, _, hset, rfl⟩ := assign_set? h
  refine ⟨fun other hother => ?_, fun v hv => ?_⟩
  · rw [Bindings.set?_names hset] at hother
    exact hf.named other hother
  · rcases Bindings.set?_values hset hv with rfl | hold
    · exact hnumber
    · exact hf.number v hold

/-- An argument that is given the value it has makes no other formula. -/
theorem assign_stored (hf : f.arguments.names.Nodup) (hnumber : value.isNaN = false)
    (h : (name, value) ∈ f.arguments.entries) : f.assign name value = .ok f := by
  obtain ⟨g, hg⟩ := assign_number (List.mem_map_of_mem h) hnumber
  obtain ⟨before, old, after, hentries, hothers, rfl⟩ := assign_assigns hf hg
  have hold : value = old := by
    rw [hentries, List.mem_append, List.mem_cons] at h
    rcases h with hbefore | heq | hafter
    · exact absurd rfl (hothers _ (List.mem_append_left _ hbefore))
    · exact (Prod.mk.inj heq).2
    · exact absurd rfl (hothers _ (List.mem_append_right _ hafter))
  rw [hg, hold, ← hentries]

end Formula

/-! The lines of a list. -/

def branch (mark : Char) (entry : String × Float) : List Char :=
  mark :: (entry.1 ++ " = " ++ plainNumber entry.2).toList

def branches : List (String × Float) → List (List Char)
  | [] => []
  | [entry] => [branch '╙' entry]
  | entry :: next :: rest => branch '╟' entry :: branches (next :: rest)

/-- The name and the number in a line of a list. They stand after the mark of the branch, with an
equality sign between them. -/
def readBranch? (line : List Char) : Option (String × String) :=
  match words (line.drop 1) with
  | [name, ['='], number] => some (String.ofList name, String.ofList number)
  | _ => none

section Branches

variable {entries : List (String × Float)} {entry : String × Float} {mark : Char}

/-- By induction on the arguments from an index on: where they end with the one at the index `last`,
the mark that goes by the index goes by the end of the list. -/
theorem argumentLines_toList {last index : Nat} (h : index + entries.length = last + 1) :
    (argumentLines last index entries).toList =
      (branches entries).flatMap fun line => '\n' :: line := by
  induction entries generalizing index with
  | nil => rfl
  | cons entry rest ih =>
    cases rest with
    | nil =>
      have hlast : index = last := by simpa using h
      simp [argumentLines, branches, branch, hlast]
    | cons next rest =>
      rw [List.length_cons] at h
      have hbefore : index ≠ last := by
        rw [List.length_cons] at h
        omega
      have hrest := @ih (index + 1) (by omega)
      rw [branches, List.flatMap_cons, ← hrest, argumentLines, if_neg hbefore]
      simp [branch]

theorem length_branches (entries : List (String × Float)) :
    (branches entries).length = entries.length := by
  induction entries with
  | nil => rfl
  | cons entry rest ih =>
    cases rest with
    | nil => rfl
    | cons next rest => exact congrArg (· + 1) ih

theorem branches_getElem? (i : Nat) : (branches entries)[i]? =
    entries[i]?.map (branch (if i + 1 = entries.length then '╙' else '╟')) := by
  induction entries generalizing i with
  | nil => rfl
  | cons entry rest ih =>
    cases rest with
    | nil => cases i <;> simp [branches]
    | cons next rest =>
      cases i with
      | zero => simp [branches]
      | succ i =>
        rw [branches, List.getElem?_cons_succ, ih, List.getElem?_cons_succ]
        simp

theorem mem_branches {line : List Char} (h : line ∈ branches entries) :
    ∃ mark entry, mark ≠ '\n' ∧ entry ∈ entries ∧ line = branch mark entry := by
  obtain ⟨i, hi⟩ := List.mem_iff_getElem?.mp h
  rw [branches_getElem?] at hi
  obtain ⟨entry, hentry, rfl⟩ := Option.map_eq_some_iff.mp hi
  refine ⟨_, entry, ?_, List.mem_of_getElem? hentry, rfl⟩
  split
  · decide
  · decide

theorem readBranch?_branch (hname : Unspaced entry.1) (hnumber : Unspaced (plainNumber entry.2)) :
    readBranch? (branch mark entry) = some (entry.1, plainNumber entry.2) := by
  have htext : (branch mark entry).drop 1 =
      entry.1.toList ++ ' ' :: (['='] ++ ' ' :: (plainNumber entry.2).toList) := by
    simp [branch]
  have hwords : words ((branch mark entry).drop 1) =
      [entry.1.toList, ['='], (plainNumber entry.2).toList] := by
    rw [htext, words_append_space rfl, words_append_space rfl, words_unspaced hname,
      words_unspaced hnumber]
    rfl
  rw [readBranch?, hwords]
  simp

theorem splitOn_lines {header : List Char} {lines : List (List Char)} (h : '\n' ∉ header)
    (hlines : ∀ line ∈ lines, '\n' ∉ line) :
    (header ++ lines.flatMap fun line => '\n' :: line).splitOn '\n' = header :: lines := by
  induction lines generalizing header with
  | nil =>
    rw [List.flatMap_nil, List.append_nil]
    exact List.splitOn_eq_singleton h
  | cons line rest ih =>
    obtain ⟨hline, hrest⟩ := List.forall_mem_cons.mp hlines
    rw [List.flatMap_cons, List.cons_append,
      List.splitOn_append_cons_self_of_not_mem h, ih hline hrest]

end Branches

namespace Session

variable {s : Session} {name argument line : String} {f : Formula} {value : Float}

theorem Reachable.names_named (h : s.Reachable) : ∀ name ∈ s.names, isName name.toList = true := by
  induction h with
  | start => simp [names]
  | @answer s line _ ih =>
    rcases s.answer_cases line with ⟨refusal, he⟩ | ⟨command, reply, next, hread, he, effect⟩
    · rw [he]
      exact ih
    · rw [he]
      cases effect with
      | created hn hp =>
        obtain ⟨_, hname⟩ := (Command.read_spelled hread).create_words
        rw [names, List.map_append]
        exact List.forall_mem_append.mpr ⟨ih, List.forall_mem_singleton.mpr hname⟩
      | compiled hn => rwa [replace_names]
      | assigned hn ha => rwa [replace_names]
      | looked => exact ih

theorem Reachable.arguments_writable (h : s.Reachable) :
    ∀ entry ∈ s.formulas, entry.2.arguments.Writable := by
  refine h.forall_formulas (P := fun f => f.arguments.Writable) (fun s source f _ hp => ?_)
    (fun f hf => ?_) fun f g _ _ hf ha => Formula.assign_writable hf ha
  · rw [registry_eq_ofExtensions] at hp
    exact Formula.parse_writable hp
  · rwa [← Body.compile_arguments] at hf

theorem replace_self (hs : s.names.Nodup) (hf : s.find? name = some f) : s.replace name f = s := by
  obtain ⟨before, after, hformulas, hreplaced⟩ := replace_formulas hs hf
  have hsame : (s.replace name f).formulas = s.formulas := (hreplaced f).trans hformulas.symm
  exact congrArg Session.mk hsame

/-- A line that sets an argument to the number that it has changes nothing. -/
theorem Reachable.answer_set_stored (h : s.Reachable) (hf : s.find? name = some f)
    (hstored : (argument, value) ∈ f.arguments.entries)
    (hline : lineWords line = ["set", name, argument, plainNumber value]) :
    s.answer line = (.ok (.text ("Success: " ++ name ++ "." ++ argument ++ "=" ++
      plainNumber value)), s) := by
  have hmem := find?_mem hf
  have hnumber : value.isNaN = false :=
    (h.arguments_writable _ hmem).number value (List.mem_map_of_mem hstored)
  have hread := Command.read_set_of_words hline (readNumber?_plainNumber hnumber)
  have hassign := Formula.assign_stored (h.arguments_nodup _ hmem) hnumber hstored
  have hsame := replace_self h.names_nodup hf
  simp only [Session.answer, hread, runOn_set, hf, hassign, hsame]

theorem answer_list (hf : s.find? name = some f) (hline : lineWords line = ["list", name]) :
    s.answer line = (.ok (.text (listText name f)), s) := by
  simp only [answer, Command.read_list_of_words hline, runOn_list, hf]

theorem after_of_unchanged {lines : List String} (h : ∀ line ∈ lines, (s.answer line).2 = s) :
    s.after lines = s := by
  induction lines with
  | nil => rfl
  | cons line rest ih =>
    obtain ⟨hline, hrest⟩ := List.forall_mem_cons.mp h
    rw [after_cons, hline, ih hrest]

/-- The line that gives an argument of a formula the number that a list shows for it. -/
def settingLine (name : String) (shown : String × String) : String :=
  "set " ++ name ++ " " ++ shown.1 ++ " " ++ shown.2

theorem Reachable.unspaced (h : s.Reachable) (hf : s.find? name = some f) : Unspaced name ∧
    ∀ entry ∈ f.arguments.entries, Unspaced entry.1 ∧ Unspaced (plainNumber entry.2) := by
  have hmem := find?_mem hf
  have writable := h.arguments_writable _ hmem
  refine ⟨unspaced_of_isName (h.names_named name (List.mem_map_of_mem hmem)),
    fun entry hentry => ⟨?_, ?_⟩⟩
  · exact unspaced_of_isName (writable.named _ (List.mem_map_of_mem hentry))
  · exact unspaced_plainNumber (writable.number _ (List.mem_map_of_mem hentry))

theorem Reachable.answer_settingLine (h : s.Reachable) (hf : s.find? name = some f)
    (hstored : (argument, value) ∈ f.arguments.entries) :
    s.answer (settingLine name (argument, plainNumber value)) =
      (.ok (.text ("Success: " ++ name ++ "." ++ argument ++ "=" ++ plainNumber value)), s) := by
  obtain ⟨hname, hentries⟩ := h.unspaced hf
  obtain ⟨hargument, hnumber⟩ := hentries _ hstored
  exact h.answer_set_stored hf hstored (lineWords_set hname hargument hnumber)

theorem Reachable.argumentCount_eq (h : s.Reachable) (hf : s.find? name = some f) :
    f.argumentCount = f.arguments.entries.length :=
  (h.formulas_reachable _ (find?_mem hf)).counted.1

/-- A list has a header and then one line for each argument. -/
theorem Reachable.listText_lines (h : s.Reachable) (hf : s.find? name = some f)
    (hsome : f.argumentCount ≠ 0) : ∃ header,
      (listText name f).toList.splitOn '\n' = header :: branches f.arguments.entries := by
  obtain ⟨hname, hentries⟩ := h.unspaced hf
  have hheader : '\n' ∉ ("Arguments of expression " ++ quoted name ++ ":").toList := by
    simp [quoted, hname.not_mem_newline]
  have hlines : ∀ line ∈ branches f.arguments.entries, '\n' ∉ line := by
    intro line hline
    obtain ⟨mark, entry, hmark, hentry, rfl⟩ := mem_branches hline
    obtain ⟨hargument, hnumber⟩ := hentries entry hentry
    simp [branch, hmark.symm, hargument.not_mem_newline, hnumber.not_mem_newline]
  refine ⟨("Arguments of expression " ++ quoted name ++ ":").toList, ?_⟩
  have hcount := h.argumentCount_eq hf
  rw [listText, if_neg hsome, String.toList_append, argumentLines_toList (by omega)]
  exact splitOn_lines hheader hlines

/-- What a list shows can be set again. The list of a formula has one line for each argument in the
order of the slots, the last one with a mark of its own, and each line shows a name and a number.
Setting the argument of that name to that number is never refused, and neither one such line nor all
of them change the session. -/
theorem Reachable.listed_set_again (h : s.Reachable) (hf : s.find? name = some f)
    (hsome : f.argumentCount ≠ 0) :
    ∃ text header printed, s.answer ("list " ++ name) = (.ok (.text text), s) ∧
      text.toList.splitOn '\n' = header :: printed ∧ printed.length = f.argumentCount ∧
      (∀ i line, printed[i]? = some line →
        line.head? = some (if i + 1 = printed.length then '╙' else '╟')) ∧
      printed.map readBranch? =
        f.arguments.entries.map (fun entry => some (entry.1, plainNumber entry.2)) ∧
      (∀ line ∈ printed, ∃ shown, readBranch? line = some shown ∧
        s.answer (settingLine name shown) =
          (.ok (.text ("Success: " ++ name ++ "." ++ shown.1 ++ "=" ++ shown.2)), s)) ∧
      s.after ((printed.filterMap readBranch?).map (settingLine name)) = s := by
  obtain ⟨hname, hentries⟩ := h.unspaced hf
  obtain ⟨header, hlines⟩ := h.listText_lines hf hsome
  have hread : ∀ entry ∈ f.arguments.entries, ∀ mark, readBranch? (branch mark entry) =
      some (entry.1, plainNumber entry.2) :=
    fun entry hentry _ => readBranch?_branch (hentries entry hentry).1 (hentries entry hentry).2
  have hset : ∀ line ∈ branches f.arguments.entries, ∃ shown, readBranch? line = some shown ∧
      s.answer (settingLine name shown) =
        (.ok (.text ("Success: " ++ name ++ "." ++ shown.1 ++ "=" ++ shown.2)), s) := by
    intro line hline
    obtain ⟨mark, entry, _, hentry, rfl⟩ := mem_branches hline
    exact ⟨_, hread entry hentry mark, h.answer_settingLine hf hentry⟩
  have hlength : (branches f.arguments.entries).length = f.argumentCount :=
    (length_branches _).trans (h.argumentCount_eq hf).symm
  refine ⟨_, header, _, answer_list hf (lineWords_list hname), hlines, hlength,
    fun i line hline => ?_, ?_, hset, ?_⟩
  · rw [branches_getElem?] at hline
    obtain ⟨entry, _, rfl⟩ := Option.map_eq_some_iff.mp hline
    rw [length_branches]
    rfl
  · refine List.ext_getElem? fun i => ?_
    rw [List.getElem?_map, branches_getElem?, List.getElem?_map, Option.map_map]
    refine Option.map_congr fun entry hentry => ?_
    exact hread entry (List.mem_of_getElem? hentry) _
  · refine after_of_unchanged fun line hline => ?_
    obtain ⟨shown, hshown, rfl⟩ := List.mem_map.mp hline
    obtain ⟨printed, hprinted, hread⟩ := List.mem_filterMap.mp hshown
    obtain ⟨other, hother, hanswer⟩ := hset printed hprinted
    obtain rfl := Option.some.inj (hread.symm.trans hother)
    rw [hanswer]

/-- A session with a formula whose arguments are a fraction below zero, a large number and
infinity. -/
def billed : Session :=
  after {} ["create bill rate*time+base", "set bill rate -.1", "set bill time 1e21",
    "set bill base INF"]

def billedList : String :=
  "Arguments of expression \"bill\":\n╟rate = -0.1\n╟time = 1000000000000000000000\n╙base = inf"

theorem billed_listed_set_again : billed.Reachable ∧
    (billed.find? "bill").map (fun f => f.argumentCount) = some 3 ∧
    billed.answer "list bill" = (.ok (.text billedList), billed) ∧
    billed.after ["set bill rate -0.1", "set bill time 1000000000000000000000",
      "set bill base inf"] = billed := by
  have h : billed.Reachable := Reachable.start.after _
  have hcount : (billed.find? "bill").map (fun f => f.argumentCount) = some 3 := by decide +kernel
  have hlist : (billed.answer "list bill").1 = .ok (.text billedList) := by decide +kernel
  obtain ⟨f, hf, hthree⟩ := Option.map_eq_some_iff.mp hcount
  obtain ⟨text, header, printed, hanswer, hlines, _, _, _, _, hafter⟩ :=
    h.listed_set_again hf (by rw [hthree]; decide)
  have htext : text = billedList := by
    have hfirst := (congrArg Prod.fst hanswer).symm.trans hlist
    exact Reply.text.inj (Except.ok.inj hfirst)
  rw [htext] at hanswer hlines
  refine ⟨h, hcount, hanswer, ?_⟩
  have hprinted : billedList.toList.splitOn '\n' =
      ["Arguments of expression \"bill\":".toList, "╟rate = -0.1".toList,
        "╟time = 1000000000000000000000".toList, "╙base = inf".toList] := by decide +kernel
  obtain ⟨_, rfl⟩ := List.cons.inj (hlines.symm.trans hprinted)
  have hsettings : (["╟rate = -0.1".toList, "╟time = 1000000000000000000000".toList,
      "╙base = inf".toList].filterMap readBranch?).map (settingLine "bill") =
        ["set bill rate -0.1", "set bill time 1000000000000000000000", "set bill base inf"] := by
    decide +kernel
  rw [hsettings] at hafter
  exact hafter

end Session

end Formulary
