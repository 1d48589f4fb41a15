import Mathlib.Data.List.Induction
import Mathlib.Logic.Relation
import Formulary.Proofs.ReachableFormula
import Formulary.Proofs.SessionDefinitions

namespace Formulary

namespace Session

/-- Some lines stored a formula `callee` before they stored one under `name`. -/
def StoredBefore (lines : List String) (callee name : String) : Prop :=
  ∃ earlier later, lines = earlier ++ later ∧ callee ∈ (after {} earlier).names ∧
    name ∉ (after {} earlier).names

/-- One formula calls another: what it embeds somewhere is the other as it was defined. -/
def Calls (s : Session) (caller callee : String) : Prop :=
  ∃ f g, s.find? caller = some f ∧ s.find? callee = some g ∧
    ∃ b ∈ f.root.bodies, b.definition = g.toBody.definition

variable {s : Session} {name : String}

section Definitions

theorem answer_definitions (hs : s.Reachable) (line : String) :
    (s.answer line).2.definitions = s.definitions ∨ ∃ name source f, s.find? name = none ∧
      Formula.parse s.registry source = .ok f ∧
      (s.answer line).2.definitions = s.definitions ++ [(name, f.toBody.definition)] := by
  rcases s.answer_cases line with ⟨refusal, ha⟩ | ⟨command, reply, next, _, ha, effect⟩
  · rw [ha]
    exact Or.inl rfl
  rw [ha]
  rcases effect.definitions hs with h | ⟨name, source, f, _, hn, hp, h⟩
  · exact Or.inl h
  · exact Or.inr ⟨name, source, f, hn, hp, h⟩

/-- No line takes a definition away or changes one. -/
theorem definitions_grow (hs : s.Reachable) (lines : List String) :
    s.definitions <+: (s.after lines).definitions := by
  induction lines generalizing s with
  | nil => exact List.prefix_refl _
  | cons line rest ih =>
    have hline : s.definitions <+: (s.answer line).2.definitions := by
      rcases answer_definitions hs line with h | ⟨_, _, _, _, _, h⟩
      · exact ⟨[], (List.append_nil _).trans h.symm⟩
      · exact ⟨_, h.symm⟩
    rw [after_cons]
    exact hline.trans (ih (hs.answer line))

theorem find?_after (hs : s.Reachable) {f : Formula} (hf : s.find? name = some f)
    (lines : List String) :
    ∃ g, (s.after lines).find? name = some g ∧ g.toBody.definition = f.toBody.definition :=
  find?_of_mem_definitions (hs.after lines).names_nodup
    ((definitions_grow hs lines).subset (mem_definitions_of_find? hf))

end Definitions

section Embedded

/-- What is embedded in a definition of the session is one of the definitions. -/
def Closed (s : Session) : Prop :=
  ∀ entry ∈ s.definitions, ∀ b ∈ entry.2.root.bodies, ∃ callee, (callee, b) ∈ s.definitions

/-- What a parsed formula embeds comes from the formulas that it calls. -/
theorem Closed.parse_bodies (hs : s.Closed) {source : String} {f : Formula}
    (hp : Formula.parse s.registry source = .ok f) :
    ∀ b ∈ f.toBody.definition.root.bodies, ∃ callee, (callee, b) ∈ s.definitions := by
  obtain ⟨_, root, arguments, hr, rfl⟩ := Formula.parse_eq_ok.mp hp
  rw [registry_eq_ofExtensions] at hr
  have stored : ∀ b ∈ root.bodies, ∃ callee, (callee, b.definition) ∈ s.definitions := by
    refine Outline.resolve_bodies (Registry.keeps_ofExtensions fun word body hbody => ?_) hr
    obtain ⟨g, hg, rfl⟩ := formula_mem_extensions hbody
    have hdefinition : (word, g.toBody.definition) ∈ s.definitions :=
      List.mem_map.mpr ⟨_, hg, rfl⟩
    exact ⟨⟨word, hdefinition⟩, fun b hb => hs _ hdefinition _ (Body.definition_mem_bodies hb)⟩
  show ∀ b ∈ (root.recast Bindings.cleared).bodies, _
  rw [Term.recast_bodies]
  exact List.forall_mem_map.mpr stored

theorem StoredBefore.concat {lines : List String} {callee : String}
    (h : StoredBefore lines callee name) (line : String) :
    StoredBefore (lines ++ [line]) callee name := by
  obtain ⟨earlier, later, rfl, hcallee, hname⟩ := h
  exact ⟨earlier, later ++ [line], List.append_assoc .., hcallee, hname⟩

/-- By induction on the lines: an old formula embeds what it embedded, and a new one embeds what was
stored before the line that created it. -/
theorem definitions_storedBefore (lines : List String) :
    ∀ entry ∈ (after {} lines).definitions, ∀ b ∈ entry.2.root.bodies, ∃ callee,
      (callee, b) ∈ (after {} lines).definitions ∧ StoredBefore lines callee entry.1 := by
  induction lines using List.reverseRecOn with
  | nil => simp [after, definitions]
  | append_singleton lines line ih =>
    have hs : (after {} lines).Reachable := Reachable.start.after lines
    rw [after_concat]
    rcases answer_definitions hs line with h | ⟨name, source, f, hn, hp, h⟩
    · rw [h]
      intro entry he b hb
      obtain ⟨callee, hcallee, hbefore⟩ := ih entry he b hb
      exact ⟨callee, hcallee, hbefore.concat line⟩
    rw [h]
    refine List.forall_mem_append.mpr ⟨fun entry he b hb => ?_, ?_⟩
    · obtain ⟨callee, hcallee, hbefore⟩ := ih entry he b hb
      exact ⟨callee, List.mem_append_left _ hcallee, hbefore.concat line⟩
    refine List.forall_mem_singleton.mpr fun b hb => ?_
    have closed : (after {} lines).Closed := fun entry he b hb =>
      (ih entry he b hb).imp fun _ h => h.1
    obtain ⟨callee, hcallee⟩ := closed.parse_bodies hp b hb
    refine ⟨callee, List.mem_append_left _ hcallee, lines, [line], rfl, ?_, find?_eq_none.mp hn⟩
    rw [← definitions_names]
    exact List.mem_map.mpr ⟨_, hcallee, rfl⟩

/-- Each formula that a stored one embeds, at any depth, is a formula that was stored before. -/
theorem embedded_storedBefore {lines : List String} {f : Formula}
    (hf : (after {} lines).find? name = some f) {b : Body Term} (hb : b ∈ f.root.bodies) :
    ∃ callee g, (after {} lines).find? callee = some g ∧ b.definition = g.toBody.definition ∧
      StoredBefore lines callee name := by
  obtain ⟨callee, hcallee, hbefore⟩ := definitions_storedBefore lines _
    (mem_definitions_of_find? hf) b.definition (Body.definition_mem_bodies hb)
  obtain ⟨g, hg, hdefinition⟩ :=
    find?_of_mem_definitions (Reachable.start.after lines).names_nodup hcallee
  exact ⟨callee, g, hg, hdefinition.symm, hbefore⟩

end Embedded

section Calls

variable {caller callee : String}

/-- How many formulas are embedded in the formula of a name. -/
def depth (s : Session) (name : String) : Nat :=
  ((s.find? name).map fun f => f.root.bodies.length).getD 0

theorem Calls.depth_lt (h : s.Calls caller callee) : s.depth callee < s.depth caller := by
  obtain ⟨f, g, hf, hg, b, hb, hdefinition⟩ := h
  have hlength : b.root.bodies.length = g.root.bodies.length := by
    rw [← b.length_bodies_definition, hdefinition, Body.length_bodies_definition]
  have hlt := Term.length_bodies_lt hb
  simp only [depth, hf, hg, Option.map_some, Option.getD_some]
  omega

/-- No formula calls itself, also not through others. -/
theorem calls_acyclic (s : Session) (name : String) : ¬ Relation.TransGen s.Calls name name := by
  have hlt : ∀ {callee}, Relation.TransGen s.Calls name callee → s.depth callee < s.depth name := by
    intro callee h
    induction h with
    | single h => exact h.depth_lt
    | tail _ h ih => exact h.depth_lt.trans ih
  exact fun h => Nat.lt_irrefl _ (hlt h)

end Calls

/-- A line that creates a formula, and is not refused, stores it. -/
theorem find?_of_creates {line : String} (hok : ∃ reply, (s.answer line).1 = .ok reply)
    (hverb : verb line = "create") (htarget : target? line = some name) :
    ∃ f, (s.answer line).2.find? name = some f := by
  obtain ⟨other, source, f, hwords, _, hn, _, hnext⟩ := answer_creates hok hverb
  obtain rfl : other = name := by
    rw [target?, hwords] at htarget
    exact Option.some.inj htarget
  refine ⟨f, ?_⟩
  rw [hnext, find?_append, hn, if_pos rfl]
  rfl

/-- What a created formula is stays: whatever lines come later, the formula is stored under its
name with the same definition. Each formula that a stored one embeds, in its operands and at any
depth, has the definition of a formula that was stored before, so no formula calls itself. -/
theorem definitions_permanent :
    (∀ (earlier : List String) (line name : String),
      (∃ reply, ((after {} earlier).answer line).1 = .ok reply) →
      verb line = "create" → target? line = some name →
        ∃ f, (after {} (earlier ++ [line])).find? name = some f ∧
          ∀ later : List String, ∃ g, (after {} (earlier ++ line :: later)).find? name = some g ∧
            g.toBody.definition = f.toBody.definition) ∧
    ∀ lines : List String,
      (∀ name f, (after {} lines).find? name = some f → ∀ b ∈ f.root.bodies, ∃ callee g,
        (after {} lines).find? callee = some g ∧ b.definition = g.toBody.definition ∧
          StoredBefore lines callee name) ∧
      ∀ name, ¬ Relation.TransGen (after {} lines).Calls name name := by
  refine ⟨fun earlier line name hok hverb htarget => ?_, fun lines => ⟨?_, calls_acyclic _⟩⟩
  · obtain ⟨f, hf⟩ := find?_of_creates hok hverb htarget
    rw [after_concat]
    refine ⟨f, hf, fun later => ?_⟩
    rw [after_append, after_cons]
    exact find?_after ((Reachable.start.after earlier).answer line) hf later
  · exact fun name f hf b hb => embedded_storedBefore hf hb

theorem caller_permanent : ∃ f,
    (after {} (["create f x+1"] ++ ["create g f(y)"])).find? "g" = some f ∧
    (∀ later, ∃ g, (after {} (["create f x+1"] ++ "create g f(y)" :: later)).find? "g" = some g ∧
      g.toBody.definition = f.toBody.definition) ∧
    ∃ b ∈ f.root.bodies, ∃ callee g,
      (after {} (["create f x+1"] ++ ["create g f(y)"])).find? callee = some g ∧
      b.definition = g.toBody.definition ∧
      StoredBefore (["create f x+1"] ++ ["create g f(y)"]) callee "g" := by
  have created : ((after {} ["create f x+1"]).answer "create g f(y)").1 =
      .ok (.text "Created expression \"g\".") := by decide +kernel
  obtain ⟨f, hf, hstays⟩ := definitions_permanent.1 ["create f x+1"] "create g f(y)" "g"
    ⟨_, created⟩ (by decide +kernel) (by decide +kernel)
  have embeds : ((after {} (["create f x+1"] ++ ["create g f(y)"])).find? "g").map
      (fun f => f.root.bodies.length) = some 1 := by decide +kernel
  rw [hf] at embeds
  obtain ⟨b, hb⟩ := List.length_eq_one_iff.mp (Option.some.inj embeds)
  have hmem : b ∈ f.root.bodies := by simp [hb]
  exact ⟨f, hf, hstays, b, hmem, (definitions_permanent.2 _).1 "g" f hf b hmem⟩

end Session

end Formulary
