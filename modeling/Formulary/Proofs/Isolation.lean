import Formulary.Proofs.ReachableFormula
import Formulary.Proofs.SessionDefinitions

namespace Formulary

/-- Formulas with the same definition and the same stored values, both compiled or both not. What
is embedded in them may be stored and compiled differently. -/
structure Formula.Alike (f g : Formula) : Prop where
  definition : f.toBody.definition = g.toBody.definition
  arguments : f.arguments = g.arguments
  isCompiled : f.isCompiled = g.isCompiled

namespace Formula.Alike

variable {f g : Formula}

theorem refl (f : Formula) : f.Alike f := ⟨rfl, rfl, rfl⟩

theorem eval? (h : f.Alike g) : f.root.eval? = g.root.eval? := by
  rw [← f.root.definition_eval?, ← g.root.definition_eval?]
  exact congrArg (fun b : Body Term => b.root.eval?) h.definition

theorem value (h : f.Alike g) : f.value = g.value := by
  rw [Formula.value, Formula.value, h.eval?, h.arguments]

/-- Code computes what the root computes, whenever and from whatever it was made. -/
theorem compiledValue (h : f.Alike g) (hf : f.Reachable) (hg : g.Reachable) :
    f.compiledValue = g.compiledValue := by
  have hcompiled := h.isCompiled
  unfold Formula.isCompiled at hcompiled
  cases hfc : f.code with
  | none =>
    rw [hfc] at hcompiled
    have hgc : g.code = none := Option.not_isSome_iff_eq_none.mp (by simp [← hcompiled])
    rw [Formula.compiledValue, Formula.compiledValue, hfc, hgc]
  | some code =>
    rw [hfc] at hcompiled
    obtain ⟨other, hgc⟩ := Option.isSome_iff_exists.mp hcompiled.symm
    have hsame : code = other := by
      rw [hf.sound.1.2 code hfc, hg.sound.1.2 other hgc, h.eval?]
    rw [Formula.compiledValue, Formula.compiledValue, hfc, hgc, hsame, h.arguments]

theorem argumentCount (h : f.Alike g) : f.argumentCount = g.argumentCount := by
  change f.toBody.definition.argumentCount = g.toBody.definition.argumentCount
  rw [h.definition]

theorem listText (h : f.Alike g) (name : String) : listText name f = listText name g := by
  rw [Formulary.listText, Formulary.listText, h.argumentCount, h.arguments]

theorem compile (h : f.Alike g) : f.compile.Alike g.compile where
  definition := by rw [compile_definition, compile_definition, h.definition]
  arguments := f.toBody.compile_arguments.trans (h.arguments.trans g.toBody.compile_arguments.symm)
  isCompiled := by rw [compile_isCompiled, compile_isCompiled]

theorem withArguments (h : f.Alike g) (arguments : Bindings) :
    ({ f with arguments } : Formula).Alike { g with arguments } :=
  ⟨congrArg (fun b : Body Term => { b with arguments := arguments.cleared }) h.definition, rfl,
    h.isCompiled⟩

theorem assign (h : f.Alike g) (argument : String) (value : Float) :
    (∃ error, f.assign argument value = .error error ∧ g.assign argument value = .error error) ∨
      ∃ f' g', f.assign argument value = .ok f' ∧ g.assign argument value = .ok g' ∧
        f'.Alike g' := by
  unfold Formula.assign
  rw [h.arguments]
  cases g.arguments.slot? argument with
  | none => exact Or.inl ⟨_, rfl, rfl⟩
  | some slot =>
    by_cases hn : value.isNaN
    · exact Or.inl ⟨_, if_pos hn, if_pos hn⟩
    · exact Or.inr ⟨_, _, if_neg hn, if_neg hn, h.withArguments _⟩

end Formula.Alike

namespace Session

/-- Sessions that answer alike to all lines about one formula: all definitions are the same, and
the formula is stored in the same way. -/
structure Alike (name : String) (s t : Session) : Prop where
  definitions : s.definitions = t.definitions
  formula : Option.Rel Formula.Alike (s.find? name) (t.find? name)

/-- What a command on another formula leaves: all definitions, and the formula as it is stored. -/
def Untouched (name : String) (s next : Session) : Prop :=
  next.definitions = s.definitions ∧ next.find? name = s.find? name

section Alike

variable {s t next : Session} {name other : String} {command : Command}

theorem Alike.refl (name : String) (s : Session) : s.Alike name s := by
  refine ⟨rfl, ?_⟩
  cases s.find? name with
  | none => exact .none
  | some f => exact .some (.refl f)

theorem Alike.find?_cases (h : s.Alike name t) :
    (s.find? name = none ∧ t.find? name = none) ∨
      ∃ f g, s.find? name = some f ∧ t.find? name = some g ∧ f.Alike g := by
  have hformula := h.formula
  generalize s.find? name = x at hformula ⊢
  generalize t.find? name = y at hformula ⊢
  cases hformula with
  | none => exact Or.inl ⟨rfl, rfl⟩
  | some hfg => exact Or.inr ⟨_, _, rfl, rfl, hfg⟩

theorem Alike.congr {s' t' : Session} (h : s.Alike name t) (hs : s.Untouched name s')
    (ht : t.Untouched name t') : s'.Alike name t' := by
  refine ⟨hs.1.trans (h.definitions.trans ht.1.symm), ?_⟩
  rw [hs.2, ht.2]
  exact h.formula

/-- A name is given away in one of the sessions when it is in the other. -/
theorem Alike.isSome_find? (h : s.Alike name t) (other : String) :
    (s.find? other).isSome = (t.find? other).isSome := by
  rw [← Option.isSome_map (f := fun f : Formula => f.toBody.definition), find?_definition,
    h.definitions, ← find?_definition, Option.isSome_map]

theorem Alike.append (h : s.Alike name t) {f g : Formula} (hfg : f.Alike g) (other : String) :
    (⟨s.formulas ++ [(other, f)]⟩ : Session).Alike name ⟨t.formulas ++ [(other, g)]⟩ := by
  constructor
  · rw [definitions_append, definitions_append, h.definitions, hfg.definition]
  rw [find?_append, find?_append]
  rcases h.find?_cases with ⟨hs, ht⟩ | ⟨f', g', hs, ht, hfg'⟩
  · rw [hs, ht]
    by_cases hn : other = name
    · rw [if_pos hn, if_pos hn]
      exact .some hfg
    · rw [if_neg hn, if_neg hn]
      exact .none
  · rw [hs, ht]
    exact .some hfg'

/-- Sessions stay alike when formulas of the same definitions take the places of those that they
have under the name. -/
theorem Alike.replace (h : s.Alike name t) (hs : s.Reachable) (ht : t.Reachable)
    {f g f' g' : Formula} (hf : s.find? name = some f) (hg : t.find? name = some g)
    (hfg : f'.Alike g') (hf' : f'.toBody.definition = f.toBody.definition)
    (hg' : g'.toBody.definition = g.toBody.definition) :
    (s.replace name f').Alike name (t.replace name g') := by
  constructor
  · rw [definitions_replace hs.names_nodup hf hf', definitions_replace ht.names_nodup hg hg',
      h.definitions]
  · rw [find?_replace hf, find?_replace hg, if_pos rfl, if_pos rfl]
    exact .some hfg

/-- A creation, of whatever formula, is answered alike and leaves sessions alike. -/
theorem Alike.runOn_create (h : s.Alike name t) (other source : String) :
    ((perform (.create other source)).runOn s).1 = ((perform (.create other source)).runOn t).1 ∧
      ((perform (.create other source)).runOn s).2.Alike name
        ((perform (.create other source)).runOn t).2 := by
  rw [Session.runOn_create, Session.runOn_create, h.isSome_find? other]
  by_cases hn : (t.find? other).isSome
  · rw [if_pos hn, if_pos hn]
    exact ⟨rfl, h⟩
  rw [if_neg hn, if_neg hn]
  rcases parse_of_definitions h.definitions source with
    ⟨error, hs, ht⟩ | ⟨f, g, hs, ht, hdefinition, harguments⟩
  · rw [hs, ht]
    exact ⟨rfl, h⟩
  · rw [hs, ht]
    have hcode := (Formula.parse_fresh hs).1.trans (Formula.parse_fresh ht).1.symm
    exact ⟨rfl, h.append ⟨hdefinition, harguments, hcode⟩ other⟩

theorem runOn_of_no_target (h : command.target? = none) :
    ∃ reply, ∀ s : Session, (perform command).runOn s = (.ok reply, s) := by
  cases command with
  | blank => exact ⟨_, fun _ => rfl⟩
  | exit => exact ⟨_, fun _ => rfl⟩
  | help => exact ⟨_, fun _ => rfl⟩
  | clear => exact ⟨_, fun _ => rfl⟩
  | create | compile | set | eval | evalCompiled | list => simp [Command.target?] at h

/-- Work on the formula goes alike in both sessions if it does once the formula is fetched. -/
theorem Alike.runOn_fetch_bind (h : s.Alike name t) {work : Formula → Action Reply}
    (hwork : ∀ f g, s.find? name = some f → t.find? name = some g → f.Alike g →
      ((work f).runOn s).1 = ((work g).runOn t).1 ∧
        ((work f).runOn s).2.Alike name ((work g).runOn t).2) :
    ((fetch name >>= work).runOn s).1 = ((fetch name >>= work).runOn t).1 ∧
      ((fetch name >>= work).runOn s).2.Alike name ((fetch name >>= work).runOn t).2 := by
  rw [Session.runOn_fetch_bind, Session.runOn_fetch_bind]
  rcases h.find?_cases with ⟨hf, hg⟩ | ⟨f, g, hf, hg, hfg⟩
  · rw [hf, hg]
    exact ⟨rfl, h⟩
  · rw [hf, hg]
    exact hwork f g hf hg hfg

/-- A command on the formula is answered alike and leaves sessions alike. -/
theorem Alike.runOn (h : s.Alike name t) (hs : s.Reachable) (ht : t.Reachable)
    (hc : command.target? = some name) :
    ((perform command).runOn s).1 = ((perform command).runOn t).1 ∧
      ((perform command).runOn s).2.Alike name ((perform command).runOn t).2 := by
  cases command with
  | blank | exit | help | clear => simp [Command.target?] at hc
  | create n source => exact h.runOn_create n source
  | compile n =>
    obtain rfl := Option.some.inj hc
    refine h.runOn_fetch_bind fun f g hf hg hfg => ⟨rfl, ?_⟩
    exact h.replace hs ht hf hg hfg.compile f.compile_definition g.compile_definition
  | set n argument value =>
    obtain rfl := Option.some.inj hc
    refine h.runOn_fetch_bind fun f g hf hg hfg => ?_
    rcases hfg.assign argument value with ⟨error, hfa, hga⟩ | ⟨f', g', hfa, hga, hfg'⟩
    · rw [hfa, hga]
      exact ⟨rfl, h⟩
    · have hf' := Formula.assign_assigns (hs.arguments_nodup _ (find?_mem hf)) hfa
      have hg' := Formula.assign_assigns (ht.arguments_nodup _ (find?_mem hg)) hga
      rw [hfa, hga]
      exact ⟨rfl, h.replace hs ht hf hg hfg' hf'.definition hg'.definition⟩
  | eval n =>
    obtain rfl := Option.some.inj hc
    refine h.runOn_fetch_bind fun f g _ _ hfg => ?_
    rw [hfg.value]
    exact ⟨rfl, h⟩
  | evalCompiled n =>
    obtain rfl := Option.some.inj hc
    refine h.runOn_fetch_bind fun f g hf hg hfg => ?_
    rw [hfg.compiledValue (hs.formulas_reachable _ (find?_mem hf))
      (ht.formulas_reachable _ (find?_mem hg))]
    cases g.compiledValue with
    | error error => exact ⟨rfl, h⟩
    | ok value => exact ⟨rfl, h⟩
  | list n =>
    obtain rfl := Option.some.inj hc
    refine h.runOn_fetch_bind fun f g _ _ hfg => ?_
    rw [hfg.listText]
    exact ⟨rfl, h⟩

theorem Effect.untouched (h : s.Effect command next) (hs : s.Reachable)
    (hcreate : ∀ n source, command ≠ .create n source) (ht : command.target? ≠ some name) :
    s.Untouched name next := by
  have hdefinitions : next.definitions = s.definitions :=
    (h.definitions hs).resolve_right fun ⟨n, source, _, he, _⟩ => hcreate n source he
  refine ⟨hdefinitions, ?_⟩
  cases h with
  | created => exact absurd rfl (hcreate _ _)
  | compiled hf => exact (find?_replace hf _ name).trans (if_neg fun he => ht (congrArg some he))
  | assigned hf => exact (find?_replace hf _ name).trans (if_neg fun he => ht (congrArg some he))
  | looked => rfl

theorem runOn_untouched (hs : s.Reachable) (hcreate : ∀ n source, command ≠ .create n source)
    (ht : command.target? ≠ some name) : s.Untouched name ((perform command).runOn s).2 := by
  rcases perform_cases command s with ⟨refusal, h⟩ | ⟨reply, next, h, effect⟩
  · rw [h]
    exact ⟨rfl, rfl⟩
  · rw [h]
    exact effect.untouched hs hcreate ht

theorem answer_untouched {line : String} (hs : s.Reachable) (hverb : verb line ≠ "create")
    (ht : target? line ≠ some name) : s.Untouched name (s.answer line).2 := by
  unfold answer
  cases hr : Command.read line with
  | error refusal => exact ⟨rfl, rfl⟩
  | ok command =>
    refine runOn_untouched hs ?_ fun hc => ht (target?_of_read hr hc)
    rintro n source rfl
    exact hverb (List.mem_singleton.mp (verb_mem_verbs hr))

/-- Any line leaves sessions alike, and one about the formula is answered alike. -/
theorem Alike.answer (h : s.Alike name t) (hs : s.Reachable) (ht : t.Reachable) (line : String) :
    (target? line = some name → (s.answer line).1 = (t.answer line).1) ∧
      (s.answer line).2.Alike name (t.answer line).2 := by
  unfold Session.answer
  cases hr : Command.read line with
  | error refusal => exact ⟨fun _ => rfl, h⟩
  | ok command =>
    cases hc : command.target? with
    | none =>
      obtain ⟨reply, hreply⟩ := runOn_of_no_target hc
      simp only [hreply]
      exact ⟨fun _ => trivial, h⟩
    | some other =>
      by_cases hn : other = name
      · subst hn
        obtain ⟨hanswer, hnext⟩ := h.runOn hs ht hc
        exact ⟨fun _ => hanswer, hnext⟩
      have hne : command.target? ≠ some name := by simpa [hc] using hn
      refine ⟨fun htarget => ?_, ?_⟩
      · rw [target?_of_read hr hc] at htarget
        exact absurd (Option.some.inj htarget) hn
      by_cases hcreate : ∃ n source, command = .create n source
      · obtain ⟨n, source, rfl⟩ := hcreate
        exact (h.runOn_create n source).2
      · simp only [not_exists] at hcreate
        exact h.congr (runOn_untouched hs hcreate hne) (runOn_untouched ht hcreate hne)

end Alike

/-- The lines about a formula with the answers to them, when all lines are answered in turn. -/
def answersTo (name : String) : Session → List String → List (String × Except Refusal Reply)
  | _, [] => []
  | s, line :: rest =>
    let (reply, next) := s.answer line
    if target? line = some name then (line, reply) :: next.answersTo name rest
    else next.answersTo name rest

/-- Some lines, and those of them that are left when lines about other formulas are dropped. Lines
that create a formula are never dropped. -/
inductive Pruned (name : String) : List String → List String → Prop
  | nil : Pruned name [] []
  | keep {lines kept : List String} (line : String) :
    Pruned name lines kept → Pruned name (line :: lines) (line :: kept)
  | drop {lines kept : List String} {line : String} :
    verb line ≠ "create" → target? line ≠ some name →
    Pruned name lines kept → Pruned name (line :: lines) kept

variable {s t : Session} {name : String} {lines kept : List String}

theorem Alike.answersTo_eq (h : s.Alike name t) (hs : s.Reachable) (ht : t.Reachable)
    (pruned : Pruned name lines kept) : s.answersTo name lines = t.answersTo name kept := by
  induction pruned generalizing s t with
  | nil => rfl
  | keep line _ ih =>
    obtain ⟨hanswer, hnext⟩ := h.answer hs ht line
    have hrest := ih hnext (hs.answer line) (ht.answer line)
    by_cases htarget : target? line = some name
    · simp only [answersTo, if_pos htarget, hanswer htarget, hrest]
    · simp only [answersTo, if_neg htarget, hrest]
  | @drop _ _ line hverb htarget _ ih =>
    have hnext := h.congr (answer_untouched hs hverb htarget) ⟨rfl, rfl⟩
    simp only [answersTo, if_neg htarget]
    exact ih hnext (hs.answer line) ht

/-- Values, code and questions stay with their formula: whatever is set, compiled or asked of other
formulas, and whenever, all lines about a formula are answered as they are without it. This holds
also when the formula calls those. -/
theorem Reachable.answersTo_pruned (h : s.Reachable) (pruned : Pruned name lines kept) :
    s.answersTo name lines = s.answersTo name kept :=
  (Alike.refl name s).answersTo_eq h h pruned

example : ({} : Session).answersTo "g" ["create f x+1", "create g f(y)", "set f x 5", "eval g"] =
    [("create g f(y)", .ok (.text "Created expression \"g\".")),
      ("eval g", .ok (.text "Evaluation result: 1"))] := by
  decide +kernel

/-- Lines about a formula and another one that it calls. -/
def callerLines : List String :=
  ["create f 2*x", "set f x 3", "compile f", "create g f(y)+1", "set f x 5", "set g y 4",
    "eval f", "eval g", "compile g", "eval-compiled g", "list g"]

/-- Those of them that create a formula or are about "g". -/
def callerKept : List String :=
  ["create f 2*x", "create g f(y)+1", "set g y 4", "eval g", "compile g", "eval-compiled g",
    "list g"]

theorem callerLines_pruned : Pruned "g" callerLines callerKept := by
  have told : Pruned "g" (callerLines.drop 7) (callerKept.drop 3) :=
    .keep _ (.keep _ (.keep _ (.keep _ .nil)))
  have called : Pruned "g" (callerLines.drop 3) (callerKept.drop 1) :=
    .keep _ (.drop (by decide +kernel) (by decide +kernel)
      (.keep _ (.drop (by decide +kernel) (by decide +kernel) told)))
  exact .keep _ (.drop (by decide +kernel) (by decide +kernel)
    (.drop (by decide +kernel) (by decide +kernel) called))

theorem callerLines_answersTo : ({} : Session).Reachable ∧ Pruned "g" callerLines callerKept ∧
    ({} : Session).answersTo "g" callerLines = ({} : Session).answersTo "g" callerKept :=
  ⟨.start, callerLines_pruned, Reachable.start.answersTo_pruned callerLines_pruned⟩

end Session

end Formulary
