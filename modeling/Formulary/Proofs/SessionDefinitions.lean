import Formulary.Proofs.CommandFrame
import Formulary.Proofs.ParsedDefinition

namespace Formulary

theorem Formula.compile_definition (f : Formula) :
    f.compile.toBody.definition = f.toBody.definition :=
  f.toBody.compile_recast

theorem Formula.Assigns.definition {f g : Formula} {argument : String} {value : Float}
    (h : f.Assigns argument value g) : g.toBody.definition = f.toBody.definition := by
  have harguments := Bindings.cleared_eq h.names
  obtain ⟨before, old, after, _, _, rfl⟩ := h
  exact congrArg (fun arguments => { f.toBody.definition with arguments }) harguments

namespace Session

variable {s t next : Session} {name : String}

/-- What the formulas of a session are, without the values and the code that they have. -/
def definitions (s : Session) : List (String × Body Term) :=
  s.formulas.map fun entry => (entry.1, entry.2.toBody.definition)

theorem definitions_names (s : Session) : s.definitions.map Prod.fst = s.names := by
  simp [definitions, names]

theorem definitions_append (s : Session) (name : String) (f : Formula) :
    (⟨s.formulas ++ [(name, f)]⟩ : Session).definitions =
      s.definitions ++ [(name, f.toBody.definition)] :=
  List.map_append

theorem find?_definition (s : Session) (name : String) :
    (s.find? name).map (fun f => f.toBody.definition) =
      (s.definitions.find? fun entry => entry.1 = name).map Prod.snd := by
  rw [find?, definitions, List.find?_map, Option.map_map, Option.map_map]
  rfl

theorem mem_definitions_of_find? {f : Formula} (h : s.find? name = some f) :
    (name, f.toBody.definition) ∈ s.definitions :=
  List.mem_map.mpr ⟨(name, f), find?_mem h, rfl⟩

theorem find?_of_mem_definitions (hs : s.names.Nodup) {b : Body Term}
    (h : (name, b) ∈ s.definitions) : ∃ f, s.find? name = some f ∧ f.toBody.definition = b := by
  obtain ⟨⟨other, f⟩, hf, he⟩ := List.mem_map.mp h
  obtain ⟨rfl, hb⟩ := Prod.mk.inj he
  exact ⟨f, find?_of_mem hs hf, hb⟩

theorem definitions_replace (hs : s.names.Nodup) {f g : Formula} (hn : s.find? name = some f)
    (hg : g.toBody.definition = f.toBody.definition) :
    (s.replace name g).definitions = s.definitions := by
  obtain ⟨before, after, hf, hr⟩ := replace_formulas hs hn
  rw [definitions, definitions, hr, hf, List.map_append, List.map_append, List.map_cons,
    List.map_cons, hg]

/-- Only a creation changes the definitions, and it adds one. -/
theorem Effect.definitions {command : Command} (h : s.Effect command next) (hs : s.Reachable) :
    next.definitions = s.definitions ∨ ∃ name source f, command = .create name source ∧
      s.find? name = none ∧ Formula.parse s.registry source = .ok f ∧
      next.definitions = s.definitions ++ [(name, f.toBody.definition)] := by
  cases h with
  | @created name source f hn hp =>
    exact Or.inr ⟨name, source, f, rfl, hn, hp, s.definitions_append name f⟩
  | @compiled name f hn =>
    exact Or.inl (definitions_replace hs.names_nodup hn f.compile_definition)
  | @assigned name argument value f g hn ha =>
    have hassigns := Formula.assign_assigns (hs.arguments_nodup _ (find?_mem hn)) ha
    exact Or.inl (definitions_replace hs.names_nodup hn hassigns.definition)
  | looked => exact Or.inl rfl

section Parse

/-- What a text of the session may call, the latest last. -/
def extensions (s : Session) : List (String × Extension) :=
  mathExtensions ++ s.formulas.map fun entry => (entry.1, .formula entry.2.toBody)

theorem registry_eq_ofExtensions (s : Session) : s.registry = .ofExtensions s.extensions := by
  rw [extensions, ← Registry.extend_math, Registry.extend, List.foldl_map]
  rfl

theorem formula_mem_extensions {word : String} {body : Body Term}
    (h : (word, Extension.formula body) ∈ s.extensions) :
    ∃ f, (word, f) ∈ s.formulas ∧ body = f.toBody := by
  rcases List.mem_append.mp h with h | h
  · simp [mathExtensions] at h
  · obtain ⟨⟨_, f⟩, hf, he⟩ := List.mem_map.mp h
    obtain ⟨rfl, hbody⟩ := Prod.mk.inj he
    exact ⟨f, hf, (Extension.formula.inj hbody).symm⟩

theorem recast_extensions (h : s.definitions = t.definitions) :
    recastEntries Bindings.cleared s.extensions = recastEntries Bindings.cleared t.extensions := by
  have split : ∀ s : Session, recastEntries Bindings.cleared s.extensions =
      recastEntries Bindings.cleared mathExtensions ++
        s.definitions.map fun entry => (entry.1, .formula entry.2) := by
    intro s
    rw [extensions, recastEntries, List.map_append, List.map_map, definitions, List.map_map]
    rfl
  rw [split, split, h]

/-- What a text parses to depends on the definitions of a session only. -/
theorem parse_of_definitions (h : s.definitions = t.definitions) (source : String) :
    (∃ error, Formula.parse s.registry source = .error error ∧
        Formula.parse t.registry source = .error error) ∨
      ∃ f g, Formula.parse s.registry source = .ok f ∧ Formula.parse t.registry source = .ok g ∧
        f.toBody.definition = g.toBody.definition ∧ f.arguments = g.arguments := by
  have hs := @Formula.parse_recast Bindings.cleared s.extensions source
  have ht := @Formula.parse_recast Bindings.cleared t.extensions source
  rw [← registry_eq_ofExtensions] at hs ht
  rw [recast_extensions h] at hs
  have heq := hs.symm.trans ht
  cases hf : Formula.parse s.registry source with
  | error error =>
    cases hg : Formula.parse t.registry source with
    | error other =>
      rw [hf, hg] at heq
      exact Or.inl ⟨error, rfl, by rw [Except.error.inj heq]⟩
    | ok g => simp [hf, hg, Except.map] at heq
  | ok f =>
    cases hg : Formula.parse t.registry source with
    | error other => simp [hf, hg, Except.map] at heq
    | ok g =>
      rw [hf, hg] at heq
      have hbody := Except.ok.inj heq
      have harguments : f.arguments = g.arguments := by injection hbody
      have hdefinition := congrArg (fun b : Body Term =>
        { b with arguments := b.arguments.cleared, code := none }) hbody
      exact Or.inr ⟨f, g, rfl, rfl, hdefinition, harguments⟩

end Parse

end Session

end Formulary
