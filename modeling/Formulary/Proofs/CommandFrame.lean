import Formulary.Proofs.Definition
import Formulary.Proofs.LineWords
import Formulary.Proofs.ReachableSession
import Formulary.Proofs.TableRequests

namespace Formulary

section Bindings

theorem Bindings.register_nodup {b : Bindings} (h : b.names.Nodup) (name : String) :
    (b.register name).2.names.Nodup := by
  rw [register_names]
  by_cases hn : name ∈ b.names
  · rwa [if_pos hn, List.append_nil]
  · rw [if_neg hn]
    exact List.Nodup.append h (List.nodup_singleton _) (List.disjoint_singleton.mpr hn)

theorem Build.run_nodup {α : Type} {x : Build α} {b c : Bindings} {value : α}
    (h : x.run b = .ok (value, c)) (hb : b.names.Nodup) : c.names.Nodup := by
  induction x generalizing b with
  | done found =>
    obtain ⟨_, rfl⟩ := Prod.mk.inj (Except.ok.inj h)
    exact hb
  | fail error => exact absurd h Build.run_fail_ne_ok
  | register name next ih => exact ih _ h (Bindings.register_nodup hb name)
  | look next ih => exact ih b h hb

/-- A parsed formula is not compiled, and each of its arguments stands once and is zero. -/
theorem Formula.parse_fresh {registry : Registry} {source : String} {f : Formula}
    (h : Formula.parse registry source = .ok f) :
    f.isCompiled = false ∧ f.arguments.names.Nodup ∧ ∀ v ∈ f.arguments.values, v = 0 := by
  obtain ⟨_, root, arguments, hr, rfl⟩ := Formula.parse_eq_ok.mp h
  refine ⟨rfl, Build.run_nodup hr List.nodup_nil, ?_⟩
  show ∀ v ∈ arguments.values, v = 0
  rw [Build.run_serveAll hr]
  exact Bindings.serveAll_zero (by simp [Bindings.values]) _

end Bindings

/-- The formula `g` is `f` with another value for one argument. -/
def Formula.Assigns (argument : String) (value : Float) (f g : Formula) : Prop :=
  ∃ before old after, f.arguments.entries = before ++ (argument, old) :: after ∧
    (∀ entry ∈ before ++ after, entry.1 ≠ argument) ∧
    g = { f with arguments := ⟨before ++ (argument, value) :: after⟩ }

theorem Formula.assign_assigns {f g : Formula} {argument : String} {value : Float}
    (hf : f.arguments.names.Nodup) (h : f.assign argument value = .ok g) :
    f.Assigns argument value g := by
  unfold Formula.assign at h
  cases hs : f.arguments.slot? argument with
  | none => simp [hs] at h
  | some slot =>
    simp only [hs] at h
    split at h
    · cases h
    obtain ⟨hlt, hn, _⟩ := List.findIdx?_eq_some_iff_getElem.mp hs
    obtain rfl := of_decide_eq_true hn
    have hsplit : f.arguments.entries = f.arguments.entries.take slot ++
        f.arguments.entries[slot] :: f.arguments.entries.drop (slot + 1) := by
      rw [← List.drop_eq_getElem_cons hlt, List.take_append_drop]
    refine ⟨_, _, _, hsplit, ?_, ?_⟩
    · rw [Bindings.names, hsplit] at hf
      exact ne_of_nodup_names hf
    · obtain rfl := Except.ok.inj h
      rw [Bindings.set?, if_pos (show slot < f.arguments.size from hlt),
        List.modify_eq_take_cons_drop hlt]
      rfl

theorem Formula.Assigns.names {f g : Formula} {argument : String} {value : Float}
    (h : f.Assigns argument value g) : g.arguments.names = f.arguments.names := by
  obtain ⟨before, old, after, hf, _, rfl⟩ := h
  simp [Bindings.names, hf]

theorem Formula.Assigns.argument? {f g : Formula} {argument : String} {value : Float}
    (h : f.Assigns argument value g) : g.argument? argument = some value := by
  obtain ⟨before, old, after, hf, hne, rfl⟩ := h
  have hslot : (⟨before ++ (argument, value) :: after⟩ : Bindings).slot? argument =
      some before.length := by
    have hnone : before.findIdx? (fun entry => entry.1 = argument) = none :=
      List.findIdx?_eq_none_iff.mpr fun entry he => by
        simpa using hne entry (List.mem_append_left _ he)
    rw [Bindings.slot?, List.findIdx?_append, hnone]
    simp [List.findIdx?_cons]
  simp [Formula.argument?, hslot, Bindings.get?]

theorem Formula.compile_isCompiled (f : Formula) : f.compile.isCompiled = true := by
  rw [Formula.isCompiled, Formula.compile]
  by_cases h : f.toBody.code = none
  · rw [Body.compile_of_none h]
    rfl
  · rw [Body.compile_of_code h]
    exact Option.isSome_iff_ne_none.mpr h

namespace Session

theorem Reachable.arguments_nodup {s : Session} (h : s.Reachable) :
    ∀ entry ∈ s.formulas, entry.2.arguments.names.Nodup := by
  refine h.forall_formulas (P := fun f => f.arguments.names.Nodup)
    (fun _ _ _ _ hp => (Formula.parse_fresh hp).2.1) (fun f hf => ?_) fun f g _ _ hf ha => ?_
  · rwa [← Body.compile_arguments] at hf
  · rwa [(Formula.assign_assigns hf ha).names]

/-- The session `next` is `s` with another formula in the place of one, which `change` relates to
it. -/
def ChangesOnly (s next : Session) (name : String) (change : Formula → Formula → Prop) : Prop :=
  ∃ before f g after, s.formulas = before ++ (name, f) :: after ∧
    next.formulas = before ++ (name, g) :: after ∧ change f g

/-- The lines that start with one of these words, and blank lines, change nothing. -/
def lookingVerbs : List String :=
  ["", "help", "clear", "exit", "eval", "eval-compiled", "eval-il", "list"]

theorem changesOnly_replace {s : Session} {name : String} {f g : Formula}
    {change : Formula → Formula → Prop} (hs : s.names.Nodup) (hf : s.find? name = some f)
    (h : change f g) : s.ChangesOnly (s.replace name g) name change := by
  obtain ⟨before, after, he, hr⟩ := replace_formulas hs hf
  exact ⟨before, f, g, after, he, hr g, h⟩

section Answer

variable {s : Session} {line : String}

theorem answer_refused {refusal : Refusal} (h : (s.answer line).1 = .error refusal) :
    (s.answer line).2 = s := by
  rcases s.answer_cases line with ⟨_, ha⟩ | ⟨_, _, _, _, ha, _⟩
  · rw [ha]
  · simp [ha] at h

theorem answer_looking (h : verb line ∈ lookingVerbs) : (s.answer line).2 = s := by
  rcases s.answer_cases line with ⟨_, ha⟩ | ⟨command, _, next, hread, ha, effect⟩
  · rw [ha]
  have hverb := verb_mem_verbs hread
  have changing : ∀ {word : String}, word ∉ lookingVerbs → verb line ∈ [word] → False :=
    fun hn hw => hn (List.mem_singleton.mp hw ▸ h)
  rw [ha]
  cases effect with
  | created => exact (changing (by simp [lookingVerbs]) hverb).elim
  | compiled => exact (changing (by simp [lookingVerbs]) hverb).elim
  | assigned => exact (changing (by simp [lookingVerbs]) hverb).elim
  | looked => rfl

/-- The first word of a line that is not refused tells its command, and with it the effect. -/
theorem answer_ok_effect {word : String} (hok : ∃ reply, (s.answer line).1 = .ok reply)
    (hv : verb line = word) : ∃ command : Command, command.Spelled (lineWords line) ∧
      word ∈ command.verbs ∧ s.Effect command (s.answer line).2 := by
  obtain ⟨reply, hr⟩ := hok
  rcases s.answer_cases line with ⟨refusal, ha⟩ | ⟨command, _, next, hread, ha, effect⟩
  · simp [ha] at hr
  · exact ⟨command, Command.read_spelled hread, hv ▸ verb_mem_verbs hread, by rwa [ha]⟩

theorem answer_creates (hok : ∃ reply, (s.answer line).1 = .ok reply) (hv : verb line = "create") :
    ∃ name source f, lineWords line = "create" :: name :: lineWords source ∧
      isName name.toList = true ∧ s.find? name = none ∧
      Formula.parse s.registry source = .ok f ∧
      (s.answer line).2 = ⟨s.formulas ++ [(name, f)]⟩ := by
  obtain ⟨command, spelled, hverb, effect⟩ := answer_ok_effect hok hv
  generalize (s.answer line).2 = next at effect ⊢
  cases effect with
  | @created name source f hn hp =>
    obtain ⟨hwords, hname⟩ := spelled.create_words
    exact ⟨name, source, f, hwords, hname, hn, hp, rfl⟩
  | compiled => simp [Command.verbs] at hverb
  | assigned => simp [Command.verbs] at hverb
  | looked hc => cases command <;> simp [Command.verbs, Command.changes] at hverb hc

theorem answer_assigns (hok : ∃ reply, (s.answer line).1 = .ok reply) (hv : verb line = "set") :
    ∃ name argument word value f g, lineWords line = ["set", name, argument, word] ∧
      readNumber? word.toList = some value ∧ s.find? name = some f ∧
      f.assign argument value = .ok g ∧ (s.answer line).2 = s.replace name g := by
  obtain ⟨command, spelled, hverb, effect⟩ := answer_ok_effect hok hv
  generalize (s.answer line).2 = next at effect ⊢
  cases effect with
  | created => simp [Command.verbs] at hverb
  | compiled => simp [Command.verbs] at hverb
  | @assigned name argument value f g hn ha =>
    obtain ⟨word, hwords, hvalue⟩ := spelled.set_words
    exact ⟨name, argument, word, value, f, g, hwords, hvalue, hn, ha, rfl⟩
  | looked hc => cases command <;> simp [Command.verbs, Command.changes] at hverb hc

theorem answer_compiles (hok : ∃ reply, (s.answer line).1 = .ok reply)
    (hv : verb line = "compile") : ∃ name f, lineWords line = ["compile", name] ∧
      s.find? name = some f ∧ (s.answer line).2 = s.replace name f.compile := by
  obtain ⟨command, spelled, hverb, effect⟩ := answer_ok_effect hok hv
  generalize (s.answer line).2 = next at effect ⊢
  cases effect with
  | created => simp [Command.verbs] at hverb
  | @compiled name f hn => exact ⟨name, f, spelled.compile_words, hn, rfl⟩
  | assigned => simp [Command.verbs] at hverb
  | looked hc => cases command <;> simp [Command.verbs, Command.changes] at hverb hc

end Answer

/-- A line that is refused changes nothing, and neither does one that only looks. A line that
creates adds one formula under a new name, not compiled and with all arguments zero, and leaves the
others as they were. A line that sets gives one argument of one formula the number that it
names. A line that compiles changes one formula, and nothing but code in it. -/
theorem Reachable.answer_frame {s : Session} (h : s.Reachable) (line : String) :
    ((∃ refusal, (s.answer line).1 = .error refusal) ∨ verb line ∈ lookingVerbs →
      (s.answer line).2 = s) ∧
    ((∃ reply, (s.answer line).1 = .ok reply) →
      (verb line = "create" → ∃ name source f,
        lineWords line = "create" :: name :: lineWords source ∧ isName name.toList = true ∧
          s.find? name = none ∧ Formula.parse s.registry source = .ok f ∧
          (s.answer line).2.formulas = s.formulas ++ [(name, f)] ∧
          f.isCompiled = false ∧ ∀ v ∈ f.arguments.values, v = 0) ∧
      (verb line = "set" → ∃ name argument word value,
        lineWords line = ["set", name, argument, word] ∧ readNumber? word.toList = some value ∧
          s.ChangesOnly (s.answer line).2 name fun f g =>
            f.Assigns argument value g ∧ g.argument? argument = some value) ∧
      (verb line = "compile" → ∃ name, lineWords line = ["compile", name] ∧
        s.ChangesOnly (s.answer line).2 name fun f g =>
          g.isCompiled = true ∧ g.uncompiled = f.uncompiled ∧ g.registry = f.registry)) := by
  constructor
  · rintro (⟨refusal, hr⟩ | hv)
    · exact answer_refused hr
    · exact answer_looking hv
  intro hok
  refine ⟨fun hv => ?_, fun hv => ?_, fun hv => ?_⟩
  · obtain ⟨name, source, f, hwords, hname, hn, hp, hnext⟩ := answer_creates hok hv
    obtain ⟨hcode, _, hzero⟩ := Formula.parse_fresh hp
    exact ⟨name, source, f, hwords, hname, hn, hp, by rw [hnext], hcode, hzero⟩
  · obtain ⟨name, argument, word, value, f, g, hwords, hvalue, hn, ha, hnext⟩ :=
      answer_assigns hok hv
    have hassigns := Formula.assign_assigns (h.arguments_nodup _ (find?_mem hn)) ha
    rw [hnext]
    exact ⟨name, argument, word, value, hwords, hvalue,
      changesOnly_replace h.names_nodup hn ⟨hassigns, hassigns.argument?⟩⟩
  · obtain ⟨name, f, hwords, hn, hnext⟩ := answer_compiles hok hv
    rw [hnext]
    exact ⟨name, hwords, changesOnly_replace h.names_nodup hn
      ⟨f.compile_isCompiled, f.toBody.compile_recast, rfl⟩⟩

/-- The session after "create f x+1" and "create g f(y)". -/
def twoFormulas : Session :=
  ((({} : Session).answer "create f x+1").2.answer "create g f(y)").2

theorem twoFormulas_answer_frame : twoFormulas.Reachable ∧
    (twoFormulas.answer "set f y 2").1 = .error (.formula (.unknownArgument "y")) ∧
    (twoFormulas.answer "set f y 2").2 = twoFormulas ∧
    (∃ name source f, lineWords "create h g(x)" = "create" :: name :: lineWords source ∧
      isName name.toList = true ∧ twoFormulas.find? name = none ∧
      Formula.parse twoFormulas.registry source = .ok f ∧
      (twoFormulas.answer "create h g(x)").2.formulas = twoFormulas.formulas ++ [(name, f)] ∧
      f.isCompiled = false ∧ ∀ v ∈ f.arguments.values, v = 0) ∧
    (∃ name argument word value, lineWords "set f x 2" = ["set", name, argument, word] ∧
      readNumber? word.toList = some value ∧
      twoFormulas.ChangesOnly (twoFormulas.answer "set f x 2").2 name fun f g =>
        f.Assigns argument value g ∧ g.argument? argument = some value) ∧
    ∃ name, lineWords "compile g" = ["compile", name] ∧
      twoFormulas.ChangesOnly (twoFormulas.answer "compile g").2 name fun f g =>
        g.isCompiled = true ∧ g.uncompiled = f.uncompiled ∧ g.registry = f.registry := by
  have h : twoFormulas.Reachable := (Reachable.start.answer _).answer _
  have refused : (twoFormulas.answer "set f y 2").1 = .error (.formula (.unknownArgument "y")) := by
    decide +kernel
  have created : (twoFormulas.answer "create h g(x)").1 =
      .ok (.text "Created expression \"h\".") := by decide +kernel
  have assigned : (twoFormulas.answer "set f x 2").1 = .ok (.text "Success: f.x=2") := by
    decide +kernel
  have compiled : (twoFormulas.answer "compile g").1 =
      .ok (.text "Compiled expression \"g\".") := by decide +kernel
  exact ⟨h, refused, (h.answer_frame "set f y 2").1 (Or.inl ⟨_, refused⟩),
    ((h.answer_frame "create h g(x)").2 ⟨_, created⟩).1 (by decide +kernel),
    ((h.answer_frame "set f x 2").2 ⟨_, assigned⟩).2.1 (by decide +kernel),
    ((h.answer_frame "compile g").2 ⟨_, compiled⟩).2.2 (by decide +kernel)⟩

end Session

end Formulary
