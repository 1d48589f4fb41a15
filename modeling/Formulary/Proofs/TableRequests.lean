import Mathlib.Data.List.Induction
import Formulary.Proofs.BuildRun

namespace Formulary

/-- One access to the bindings while a part of a formula is made. -/
inductive Request where
  | register (name : String)
  | look
deriving DecidableEq, Repr

def Request.name? : Request → Option String
  | .register name => some name
  | .look => none

/-- The accesses to the bindings in their order, until the making is done or fails. -/
def Build.requests {α : Type} : Build α → Bindings → List Request
  | .done _, _ => []
  | .fail _, _ => []
  | .register name next, b =>
    .register name :: (next (b.register name).1).requests (b.register name).2
  | .look next, b => .look :: (next b).requests b

def Bindings.serve (b : Bindings) : Request → Bindings
  | .register name => (b.register name).2
  | .look => b

def Bindings.serveAll (b : Bindings) (requests : List Request) : Bindings :=
  requests.foldl Bindings.serve b

theorem Bindings.serveAll_append (b : Bindings) (first later : List Request) :
    b.serveAll (first ++ later) = (b.serveAll first).serveAll later :=
  List.foldl_append

namespace Build

variable {α β : Type}

theorem requests_bind (x : Build α) (f : α → Build β) (b : Bindings) :
    (x >>= f).requests b = x.requests b ++
      match x.run b with
      | .ok (value, middle) => (f value).requests middle
      | .error _ => [] := by
  show (x.bind f).requests b = _
  induction x generalizing b with
  | done value => rfl
  | fail error => rfl
  | register name next ih =>
    rw [bind, requests, ih]
    rfl
  | look next ih =>
    rw [bind, requests, ih]
    rfl

theorem requests_map (x : Build α) (f : α → β) (b : Bindings) :
    (x >>= fun value => pure (f value)).requests b = x.requests b := by
  rw [requests_bind]
  cases x.run b with
  | error error => exact List.append_nil _
  | ok made => exact List.append_nil _

theorem requests_ofExcept (x : Except Error α) (b : Bindings) : (ofExcept x).requests b = [] := by
  cases x <;> rfl

/-- The bindings change by the accesses only. -/
theorem run_serveAll {x : Build α} {b c : Bindings} {value : α}
    (h : x.run b = .ok (value, c)) : c = b.serveAll (x.requests b) := by
  induction x generalizing b with
  | done found =>
    obtain ⟨_, rfl⟩ := Prod.mk.inj (Except.ok.inj h)
    rfl
  | fail error => exact absurd h Build.run_fail_ne_ok
  | register name next ih => exact ih _ h
  | look next ih => exact ih b h

end Build

namespace Bindings

variable {b c : Bindings} {name : String}

theorem slot?_eq_idxOf? (b : Bindings) (name : String) : b.slot? name = b.names.idxOf? name := by
  rw [slot?, names, List.idxOf?, List.findIdx?_map]
  congr 1

theorem getElem_of_slot? {slot : Nat} (h : b.slot? name = some slot) :
    ∃ hlt : slot < b.entries.length, b.entries[slot].1 = name := by
  obtain ⟨hlt, hname, _⟩ := List.findIdx?_eq_some_iff_getElem.mp h
  exact ⟨hlt, of_decide_eq_true hname⟩

theorem names_getElem?_of_slot? {slot : Nat} (h : b.slot? name = some slot) :
    b.names[slot]? = some name := by
  obtain ⟨hlt, hname⟩ := getElem_of_slot? h
  rw [names, List.getElem?_map, List.getElem?_eq_getElem hlt, Option.map_some, hname]

theorem slot?_eq_none : b.slot? name = none ↔ name ∉ b.names := by
  rw [slot?, List.findIdx?_eq_none_iff, names, List.mem_map]
  constructor
  · intro h hm
    obtain ⟨entry, he, rfl⟩ := hm
    simpa using h entry he
  · intro h entry he
    by_contra hn
    exact h ⟨entry, he, by simpa using hn⟩

theorem register_names (b : Bindings) (name : String) :
    (b.register name).2.names = b.names ++ if name ∈ b.names then [] else [name] := by
  unfold register
  cases hs : b.slot? name with
  | none =>
    rw [if_neg (slot?_eq_none.mp hs)]
    simp [names]
  | some slot =>
    have hm : name ∈ b.names := by
      by_contra hn
      rw [slot?_eq_none.mpr hn] at hs
      simp at hs
    rw [if_pos hm, List.append_nil]

theorem eraseDups_concat (before : List String) (name : String) :
    (before ++ [name]).eraseDups = before.eraseDups ++ if name ∈ before then [] else [name] := by
  rw [List.eraseDups_append]
  by_cases h : name ∈ before
  · simp [h, List.removeAll]
  · simp [h, List.removeAll, List.eraseDups_cons]

/-- The names are those that were registered, in the order of their first registration. -/
theorem serveAll_names (requests : List Request) :
    (({} : Bindings).serveAll requests).names = (requests.filterMap Request.name?).eraseDups := by
  induction requests using List.reverseRecOn with
  | nil => rfl
  | append_singleton before request ih =>
    rw [serveAll_append, List.filterMap_append]
    cases request with
    | look =>
      show (({} : Bindings).serveAll before).names = (_ ++ []).eraseDups
      rw [List.append_nil, ih]
    | register name =>
      show ((({} : Bindings).serveAll before).register name).2.names = (_ ++ [name]).eraseDups
      simp only [register_names, ih, eraseDups_concat, List.mem_eraseDups]

theorem register_zero (h : ∀ v ∈ b.values, v = 0) :
    ∀ v ∈ (b.register name).2.values, v = 0 := by
  unfold register
  cases b.slot? name with
  | some slot => exact h
  | none =>
    intro v hv
    rw [values, List.map_append] at hv
    rcases List.mem_append.mp hv with hv | hv
    · exact h v hv
    · simpa using hv

theorem serveAll_zero (h : ∀ v ∈ b.values, v = 0) (requests : List Request) :
    ∀ v ∈ (b.serveAll requests).values, v = 0 := by
  induction requests generalizing b with
  | nil => exact h
  | cons request rest ih =>
    cases request with
    | look => exact ih h
    | register name => exact ih (register_zero h)

theorem slot?_register (b : Bindings) (name : String) :
    (b.register name).2.slot? name = some (b.register name).1 := by
  unfold register
  cases hs : b.slot? name with
  | some slot => exact hs
  | none =>
    rw [slot?] at hs
    simp [slot?, List.findIdx?_append, hs, size]

theorem slot?_of_prefix (h : b.entries <+: c.entries) {slot : Nat}
    (hs : b.slot? name = some slot) : c.slot? name = some slot := by
  obtain ⟨later, hl⟩ := h
  rw [slot?] at hs
  rw [slot?, ← hl, List.findIdx?_append, hs]
  rfl

theorem serveAll_prefix (b : Bindings) (requests : List Request) :
    b.entries <+: (b.serveAll requests).entries := by
  induction requests generalizing b with
  | nil => exact List.prefix_rfl
  | cons request rest ih =>
    cases request with
    | look => exact ih b
    | register name => exact (b.register_prefix name).trans (ih _)

end Bindings

end Formulary
