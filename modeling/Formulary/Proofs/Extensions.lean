import Formulary.Proofs.BuildRun

namespace Formulary

/-- What a name may stand for in a registry: a function, or a formula that is embedded. -/
inductive Extension where
  | function (arity : Arity) (apply : List Float → Float)
  | formula (body : Body Term)

namespace Extension

def arity : Extension → Arity
  | .function arity _ => arity
  | .formula body => .exactly body.argumentCount

def term (name : String) (operands : List Term) : Extension → Term
  | .function _ apply => .call ⟨name, apply⟩ operands
  | .formula body => .embedded body operands

def provider (name : String) (e : Extension) : Provider := fun operands => do
  Build.ofExcept (e.arity.check name operands.length)
  return e.term name operands

def addTo (registry : Registry) (name : String) : Extension → Registry
  | .function arity apply => registry.addFunction name arity apply
  | .formula body => registry.addFormula name body

theorem addTo_eq (registry : Registry) (name : String) (e : Extension) :
    e.addTo registry name = registry.add name (e.provider name) := by
  cases e <;> rfl

theorem provider_run_eq_ok {name : String} {e : Extension} {operands : List Term} {t : Term}
    {b c : Bindings} :
    (e.provider name operands).run b = .ok (t, c) ↔
      e.arity.accepts operands.length = true ∧ t = e.term name operands ∧ c = b := by
  have hcheck : e.arity.check name operands.length = .ok () ↔
      e.arity.accepts operands.length = true := by
    by_cases h : e.arity.accepts operands.length = true <;> simp [Arity.check, h]
  rw [provider, Build.run_bind_eq_ok]
  constructor
  · intro h
    obtain ⟨_, middle, hrun, hterm⟩ := h
    obtain ⟨hc, rfl⟩ := Build.run_ofExcept_eq_ok.mp hrun
    obtain ⟨rfl, rfl⟩ := Prod.mk.inj (Except.ok.inj hterm)
    exact ⟨hcheck.mp hc, rfl, rfl⟩
  · intro h
    obtain ⟨ha, rfl, rfl⟩ := h
    exact ⟨(), c, Build.run_ofExcept_eq_ok.mpr ⟨hcheck.mpr ha, rfl⟩, rfl⟩

end Extension

theorem Registry.find?_add (registry : Registry) (name word : String) (provider : Provider) :
    (registry.add name provider).find? word =
      if name = word then some provider else registry.find? word := by
  unfold Registry.find? Registry.add
  by_cases h : name = word
  · simp [h]
  · rw [List.find?_cons_of_neg (by simpa using h), if_neg h, List.find?_filter]
    congr 2
    funext entry
    by_cases he : entry.1 = word
    · simp [he, Ne.symm h]
    · simp [he]

def Registry.extend (registry : Registry) (entries : List (String × Extension)) : Registry :=
  entries.foldl (fun registry entry => entry.2.addTo registry entry.1) registry

/-- The registry that holds some extensions, registered one after the other. -/
def Registry.ofExtensions (entries : List (String × Extension)) : Registry :=
  ({} : Registry).extend entries

/-- What a name stands for: the extension that was registered last under it. -/
def latest? (entries : List (String × Extension)) (name : String) : Option Extension :=
  (entries.reverse.find? fun entry => entry.1 = name).map Prod.snd

theorem latest?_mem {entries : List (String × Extension)} {name : String} {e : Extension}
    (h : latest? entries name = some e) : (name, e) ∈ entries := by
  obtain ⟨entry, he, rfl⟩ := Option.map_eq_some_iff.mp h
  have hn : entry.1 = name := by simpa using List.find?_some he
  have hmem := List.mem_reverse.mp (List.mem_of_find?_eq_some he)
  rwa [← hn]

theorem Registry.find?_foldr (entries : List (String × Extension)) (name : String) :
    (entries.foldr (fun entry registry => entry.2.addTo registry entry.1)
        ({} : Registry)).find? name =
      ((entries.find? fun entry => entry.1 = name).map Prod.snd).map
        (Extension.provider name) := by
  induction entries with
  | nil => rfl
  | cons entry rest ih =>
    rw [List.foldr_cons, Extension.addTo_eq, Registry.find?_add, ih]
    by_cases h : entry.1 = name
    · rw [if_pos h, List.find?_cons_of_pos (by simpa using h), h]
      rfl
    · rw [if_neg h, List.find?_cons_of_neg (by simpa using h)]

theorem Registry.find?_ofExtensions (entries : List (String × Extension)) (name : String) :
    (Registry.ofExtensions entries).find? name =
      (latest? entries name).map (Extension.provider name) := by
  rw [Registry.ofExtensions, Registry.extend, List.foldl_eq_foldr_reverse, Registry.find?_foldr,
    latest?]

def mathExtensions : List (String × Extension) :=
  unaryFunctions.map (fun entry => (entry.1, .function (.exactly 1) (applyUnary entry.2))) ++
    [("min", .function (.range 1 none) least), ("max", .function (.range 1 none) greatest)]

/-- The mathematical functions with more extensions are extensions like any others. -/
theorem Registry.extend_math (entries : List (String × Extension)) :
    Registry.math.extend entries = Registry.ofExtensions (mathExtensions ++ entries) := by
  rw [Registry.ofExtensions, Registry.extend, Registry.extend, List.foldl_append]
  rfl

end Formulary
