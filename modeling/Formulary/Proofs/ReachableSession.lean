import Mathlib.Data.List.Nodup
import Formulary.Proofs.Provenance
import Formulary.Proofs.SessionStep

namespace Formulary

/-- In a list with distinct names no other entry has the name of a given one. -/
theorem ne_of_nodup_names {α : Type} {before after : List (String × α)} {name : String} {x : α}
    (h : ((before ++ (name, x) :: after).map Prod.fst).Nodup) :
    ∀ entry ∈ before ++ after, entry.1 ≠ name := by
  rw [List.map_append, List.map_cons, List.nodup_middle, ← List.map_append] at h
  intro entry he hn
  exact (List.nodup_cons.mp h).1 (List.mem_map.mpr ⟨entry, he, hn⟩)

namespace Session

/-- The sessions that some lines lead to. -/
inductive Reachable : Session → Prop
  | start : Reachable {}
  | answer {s : Session} (line : String) : Reachable s → Reachable (s.answer line).2

/-- The session after some lines. -/
def after (s : Session) (lines : List String) : Session :=
  lines.foldl (fun s line => (s.answer line).2) s

def names (s : Session) : List String := s.formulas.map Prod.fst

theorem replace_names (s : Session) (name : String) (f : Formula) :
    (s.replace name f).names = s.names := by
  rw [names, replace, List.map_map]
  refine List.map_congr_left fun entry _ => ?_
  by_cases h : entry.1 = name <;> simp [h]

theorem find?_eq_none {s : Session} {name : String} : s.find? name = none ↔ name ∉ s.names := by
  rw [find?, Option.map_eq_none_iff, List.find?_eq_none, names, List.mem_map]
  constructor
  · rintro h ⟨entry, he, rfl⟩
    exact h entry he (by simp)
  · intro h entry he hn
    exact h ⟨entry, he, of_decide_eq_true hn⟩

theorem find?_mem {s : Session} {name : String} {f : Formula} (h : s.find? name = some f) :
    (name, f) ∈ s.formulas := by
  obtain ⟨entry, he, rfl⟩ := Option.map_eq_some_iff.mp h
  have hn := List.find?_some he
  have := List.mem_of_find?_eq_some he
  rwa [← of_decide_eq_true hn]

theorem find?_append (s : Session) (f : Formula) (name other : String) :
    (⟨s.formulas ++ [(other, f)]⟩ : Session).find? name =
      (s.find? name).or (if other = name then some f else none) := by
  rw [find?, List.find?_append, find?, Option.map_or]
  by_cases h : other = name <;> simp [h]

theorem find?_replace {s : Session} {f : Formula} {other : String} (hf : s.find? other = some f)
    (g : Formula) (name : String) :
    (s.replace other g).find? name = if other = name then some g else s.find? name := by
  have hname : ∀ entry : String × Formula,
      ((fun entry : String × Formula => decide (entry.1 = name)) ∘
        fun entry => if entry.1 = other then (other, g) else entry) entry =
          decide (entry.1 = name) := by
    intro entry
    by_cases he : entry.1 = other <;> simp [he]
  rw [find?, replace, List.find?_map, funext hname, Option.map_map]
  unfold find? at hf ⊢
  cases hfound : s.formulas.find? fun entry => entry.1 = name with
  | none =>
    have hne : other ≠ name := by
      rintro rfl
      simp [hfound] at hf
    rw [if_neg hne]
    rfl
  | some entry =>
    have hentry : entry.1 = name := by simpa using List.find?_some hfound
    by_cases he : other = name
    · simp [hentry, he]
    · simp [hentry, he, Ne.symm he]

/-- The place of a formula among the others. -/
theorem mem_split {s : Session} {name : String} {f : Formula} (hs : s.names.Nodup)
    (h : (name, f) ∈ s.formulas) : ∃ before after, s.formulas = before ++ (name, f) :: after ∧
      (∀ entry ∈ before, entry.1 ≠ name) ∧ ∀ entry ∈ after, entry.1 ≠ name := by
  obtain ⟨before, after, hf⟩ := List.append_of_mem h
  rw [names, hf] at hs
  exact ⟨before, after, hf, List.forall_mem_append.mp (ne_of_nodup_names hs)⟩

theorem find?_of_mem {s : Session} {name : String} {f : Formula} (hs : s.names.Nodup)
    (h : (name, f) ∈ s.formulas) : s.find? name = some f := by
  obtain ⟨before, after, hf, hbefore, _⟩ := mem_split hs h
  have hnone : before.find? (fun entry => entry.1 = name) = none :=
    List.find?_eq_none.mpr fun entry he => by simpa using hbefore entry he
  rw [find?, hf, List.find?_append, hnone]
  simp

/-- In the place of a formula comes another one, and all others stay as they were. -/
theorem replace_formulas {s : Session} {name : String} {f : Formula} (hs : s.names.Nodup)
    (h : s.find? name = some f) : ∃ before after, s.formulas = before ++ (name, f) :: after ∧
      ∀ g, (s.replace name g).formulas = before ++ (name, g) :: after := by
  obtain ⟨before, after, hf, hbefore, hafter⟩ := mem_split hs (find?_mem h)
  refine ⟨before, after, hf, fun g => ?_⟩
  have keep : ∀ entries : List (String × Formula), (∀ entry ∈ entries, entry.1 ≠ name) →
      entries.map (fun entry => if entry.1 = name then (name, g) else entry) = entries :=
    fun entries hne =>
      (List.map_congr_left fun entry he => if_neg (hne entry he)).trans (List.map_id _)
  rw [replace, hf, List.map_append, List.map_cons, keep before hbefore, keep after hafter,
    if_pos rfl]

theorem Effect.names_nodup {s next : Session} {command : Command} (h : s.Effect command next)
    (hs : s.names.Nodup) : next.names.Nodup := by
  cases h with
  | created hn hp =>
    rw [names, List.map_append]
    have hnew := find?_eq_none.mp hn
    exact List.Nodup.append hs (List.nodup_singleton _) (List.disjoint_singleton.mpr hnew)
  | compiled hn => rwa [replace_names]
  | assigned hn ha => rwa [replace_names]
  | looked => exact hs

theorem registry_honest {s : Session} (h : ∀ entry ∈ s.formulas, entry.2.Reachable) :
    s.registry.Honest := by
  have all : ∀ (formulas : List (String × Formula)) (registry : Registry), registry.Honest →
      (∀ entry ∈ formulas, entry.2.Reachable) →
      (formulas.foldl (fun r entry => r.addFormula entry.1 entry.2.toBody) registry).Honest := by
    intro formulas
    induction formulas with
    | nil => exact fun _ h _ => h
    | cons entry rest ih =>
      intro registry honest hf
      obtain ⟨hfirst, hrest⟩ := List.forall_mem_cons.mp hf
      exact ih _ (honest.addFormula hfirst) hrest
  exact all s.formulas .math Registry.honest_math h

theorem replace_forall {s : Session} {name : String} {f : Formula} {P : Formula → Prop}
    (h : ∀ entry ∈ s.formulas, P entry.2) (hf : P f) :
    ∀ entry ∈ (s.replace name f).formulas, P entry.2 := by
  refine List.forall_mem_map.mpr fun entry he => ?_
  by_cases hn : entry.1 = name
  · rwa [if_pos hn]
  · rw [if_neg hn]
    exact h entry he

theorem Reachable.induct {P : Session → Prop} (start : P {})
    (step : ∀ s command next, P s → s.Effect command next → P next) {s : Session}
    (h : s.Reachable) : P s := by
  induction h with
  | start => exact start
  | @answer s line _ ih =>
    rcases s.answer_cases line with ⟨refusal, he⟩ | ⟨command, reply, next, _, he, effect⟩
    · rw [he]
      exact ih
    · rw [he]
      exact step s command next ih effect

theorem Reachable.names_nodup {s : Session} (h : s.Reachable) : s.names.Nodup :=
  h.induct List.nodup_nil fun _ _ _ hs effect => effect.names_nodup hs

/-- What each parsed formula has, and what compiling and assigning leave it with, all formulas of a
session have. -/
theorem Reachable.forall_formulas {P : Formula → Prop}
    (parsed : ∀ (s : Session) (source : String) (f : Formula), (∀ entry ∈ s.formulas, P entry.2) →
      Formula.parse s.registry source = .ok f → P f)
    (compiled : ∀ f, P f → P f.compile)
    (assigned : ∀ f g argument value, P f → f.assign argument value = .ok g → P g)
    {s : Session} (h : s.Reachable) : ∀ entry ∈ s.formulas, P entry.2 := by
  refine h.induct (P := fun s => ∀ entry ∈ s.formulas, P entry.2) (by simp)
    fun s command next hs effect => ?_
  cases effect with
  | @created name source f hn hp =>
    exact List.forall_mem_append.mpr ⟨hs, List.forall_mem_singleton.mpr (parsed s source f hs hp)⟩
  | @compiled name f hn => exact replace_forall hs (compiled f (hs _ (find?_mem hn)))
  | @assigned name argument value f g hn ha =>
    exact replace_forall hs (assigned f g argument value (hs _ (find?_mem hn)) ha)
  | looked => exact hs

theorem Reachable.formulas_reachable {s : Session} (h : s.Reachable) :
    ∀ entry ∈ s.formulas, entry.2.Reachable :=
  h.forall_formulas (fun _ _ _ hs hp => .of_parse (registry_honest hs) hp)
    (fun _ hf => hf.compile) fun _ _ _ _ hf ha => hf.assign ha

theorem after_append (s : Session) (lines more : List String) :
    s.after (lines ++ more) = (s.after lines).after more :=
  List.foldl_append

theorem after_concat (s : Session) (lines : List String) (line : String) :
    s.after (lines ++ [line]) = ((s.after lines).answer line).2 :=
  after_append s lines [line]

theorem after_cons (s : Session) (line : String) (lines : List String) :
    s.after (line :: lines) = (s.answer line).2.after lines := by
  rw [after, after, List.foldl_cons]

theorem Reachable.after {s : Session} (h : s.Reachable) (lines : List String) :
    (s.after lines).Reachable := by
  induction lines generalizing s with
  | nil => exact h
  | cons line rest ih =>
    rw [after_cons]
    exact ih (h.answer line)

end Session

end Formulary
