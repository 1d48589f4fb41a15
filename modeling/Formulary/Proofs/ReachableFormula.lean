import Formulary.Proofs.Provenance

namespace Formulary

section Advances

variable {t u : Term}

theorem Term.evalAll?_replace {before after : List Term} (h : u.eval? = t.eval?) :
    Term.evalAll? (before ++ u :: after) = Term.evalAll? (before ++ t :: after) := by
  funext values
  induction before with
  | nil => simp only [List.nil_append, Term.evalAll?, h]
  | cons first rest ih => simp only [List.cons_append, Term.evalAll?, ih]

theorem Term.Advances.eval?_eq (h : t.Advances u) : u.eval? = t.eval? := by
  funext values
  induction h generalizing values with
  | lower t => rw [Term.compileEmbedded_eval?]
  | compile body operands =>
    have hroot := Body.compile_root (P := fun t => t.eval? = body.root.eval?) rfl
      body.root.compileEmbedded_eval?
    change (Term.evalAll? operands values).bind body.compile.root.eval? = _
    rw [hroot]
    rfl
  | neg _ ih => rw [Term.eval?, Term.eval?, ih]
  | left _ ih => rw [Term.eval?, Term.eval?, ih]
  | right _ ih => rw [Term.eval?, Term.eval?, ih]
  | call _ ih => rw [Term.eval?, Term.eval?, Term.evalAll?_replace (funext ih)]
  | @operand body before after t u _ ih =>
    change (Term.evalAll? (before ++ u :: after) values).bind body.root.eval? = _
    rw [Term.evalAll?_replace (funext ih)]
    rfl
  | @root body operands u _ ih =>
    change (Term.evalAll? operands values).bind u.eval? = _
    rw [funext ih]
    rfl

theorem Term.Advances.fits (h : t.Advances u) {size : Nat} (ht : t.Fits size) : u.Fits size := by
  induction h generalizing size with
  | lower t => exact (Term.compileEmbedded_fits t size).mpr ht
  | compile body operands => exact ⟨ht.1.trans body.compile_argumentCount.symm, ht.2⟩
  | neg _ ih => exact ih ht
  | left _ ih => exact ⟨ih ht.1, ht.2⟩
  | right _ ih => exact ⟨ht.1, ih ht.2⟩
  | call _ ih =>
    have hall := List.forall_mem_append.mp (Term.allFit_iff.mp ht)
    obtain ⟨hfirst, hrest⟩ := List.forall_mem_cons.mp hall.2
    exact Term.allFit_iff.mpr
      (List.forall_mem_append.mpr ⟨hall.1, List.forall_mem_cons.mpr ⟨ih hfirst, hrest⟩⟩)
  | operand _ ih =>
    have hall := List.forall_mem_append.mp (Term.allFit_iff.mp ht.2)
    obtain ⟨hfirst, hrest⟩ := List.forall_mem_cons.mp hall.2
    exact ⟨by simpa using ht.1, Term.allFit_iff.mpr
      (List.forall_mem_append.mpr ⟨hall.1, List.forall_mem_cons.mpr ⟨ih hfirst, hrest⟩⟩)⟩
  | root _ _ => exact ht

/-- Work on the root of a formula keeps the formula well made: its code may be older than the
root, but the value of the root has not changed. -/
theorem Body.WellMade.advance {b : Body Term} (hb : b.WellMade) (h : b.root.Advances u) :
    ({ b with root := u } : Body Term).WellMade :=
  ⟨h.fits hb.1, fun code hc => (hb.2 code hc).trans h.eval?_eq.symm⟩

theorem Term.forall_bodies_replace {P : Body Term → Prop} {before after : List Term}
    (h : (∀ b ∈ t.bodies, P b) → ∀ b ∈ u.bodies, P b)
    (hall : ∀ x ∈ before ++ t :: after, ∀ b ∈ x.bodies, P b) :
    ∀ x ∈ before ++ u :: after, ∀ b ∈ x.bodies, P b := by
  obtain ⟨hbefore, hall⟩ := List.forall_mem_append.mp hall
  obtain ⟨hfirst, hafter⟩ := List.forall_mem_cons.mp hall
  exact List.forall_mem_append.mpr ⟨hbefore, List.forall_mem_cons.mpr ⟨h hfirst, hafter⟩⟩

/-- Work on the root of a formula keeps a property, if what is embedded in it has it. -/
def Body.AdvanceKeeps (P : Body Term → Prop) : Prop :=
  ∀ (b : Body Term) (u : Term), P b → (∀ c ∈ b.root.bodies, P c) → b.root.Advances u →
    P { b with root := u }

theorem Term.Advances.forall_bodies {P : Body Term → Prop} (compiling : Body.CompileKeeps P)
    (advancing : Body.AdvanceKeeps P) (h : t.Advances u) (ht : ∀ b ∈ t.bodies, P b) :
    ∀ b ∈ u.bodies, P b := by
  induction h with
  | lower t => exact Term.compileEmbedded_forall compiling ht
  | compile body operands =>
    obtain ⟨hbody, hroot, hall⟩ := Term.forall_bodies_embedded.mp ht
    have hcompiled := Term.compileEmbedded_forall compiling hroot
    exact Term.forall_bodies_embedded.mpr ⟨compiling body hbody hroot hcompiled,
      Body.compile_root (P := fun t => ∀ b ∈ t.bodies, P b) hroot hcompiled, hall⟩
  | neg _ ih => exact ih ht
  | left _ ih =>
    obtain ⟨hl, hr⟩ := List.forall_mem_append.mp ht
    exact List.forall_mem_append.mpr ⟨ih hl, hr⟩
  | right _ ih =>
    obtain ⟨hl, hr⟩ := List.forall_mem_append.mp ht
    exact List.forall_mem_append.mpr ⟨hl, ih hr⟩
  | call _ ih =>
    exact Term.forall_bodiesAll.mpr
      (Term.forall_bodies_replace ih (Term.forall_bodiesAll.mp ht))
  | operand _ ih =>
    obtain ⟨hbody, hroot, hall⟩ := Term.forall_bodies_embedded.mp ht
    exact Term.forall_bodies_embedded.mpr ⟨hbody, hroot, Term.forall_bodies_replace ih hall⟩
  | root h ih =>
    obtain ⟨hbody, hroot, hall⟩ := Term.forall_bodies_embedded.mp ht
    exact Term.forall_bodies_embedded.mpr ⟨advancing _ _ hbody hroot h, ih hroot, hall⟩

end Advances

section Resolve

variable {registry : Registry} {P : Body Term → Prop}

/-- A property of formulas that the terms of all extensions keep. -/
def Registry.Keeps (registry : Registry) (P : Body Term → Prop) : Prop :=
  ∀ word provider, registry.find? word = some provider → ∀ operands before term after,
    (∀ b ∈ Term.bodiesAll operands, P b) → (provider operands).run before = .ok (term, after) →
      ∀ b ∈ term.bodies, P b

theorem Term.bodies_negate (t : Term) : t.negate.bodies = t.bodies := by
  cases t <;> rfl

mutual

/-- What the extensions keep holds of all that is embedded in a parsed term. -/
theorem Outline.resolve_bodies (keeps : registry.Keeps P) {o : Outline} {b c : Bindings}
    {t : Term} (h : (o.resolve registry).run b = .ok (t, c)) : ∀ d ∈ t.bodies, P d := by
  cases o with
  | fault cause place => exact absurd h Build.run_fail_ne_ok
  | number value =>
    obtain ⟨rfl, _⟩ := Prod.mk.inj (Except.ok.inj h)
    simp [Term.bodies]
  | name place =>
    obtain ⟨rfl, _⟩ := Outline.resolve_name_eq_ok.mp h
    simp [Term.bodies]
  | minus operand =>
    obtain ⟨x, hx, rfl⟩ := Outline.resolve_minus_eq_ok.mp h
    rw [Term.bodies_negate]
    exact Outline.resolve_bodies keeps hx
  | binary op left right =>
    obtain ⟨x, y, middle, hx, hy, rfl⟩ := Outline.resolve_binary_eq_ok.mp h
    exact List.forall_mem_append.mpr
      ⟨Outline.resolve_bodies keeps hx, Outline.resolve_bodies keeps hy⟩
  | call word place arguments =>
    obtain ⟨provider, operands, middle, hf, ho, hp, _⟩ := Outline.resolve_call_eq_ok.mp h
    exact keeps word provider hf operands middle t c (Outline.resolveAll_bodies keeps ho) hp

theorem Outline.resolveAll_bodies (keeps : registry.Keeps P) {os : List Outline} {b c : Bindings}
    {ts : List Term} (h : (Outline.resolveAll registry os).run b = .ok (ts, c)) :
    ∀ d ∈ Term.bodiesAll ts, P d := by
  cases os with
  | nil =>
    obtain ⟨rfl, _⟩ := Outline.resolveAll_nil_eq_ok.mp h
    simp [Term.bodiesAll]
  | cons o rest =>
    obtain ⟨x, xs, middle, hx, hxs, rfl⟩ := Outline.resolveAll_cons_eq_ok.mp h
    exact List.forall_mem_append.mpr
      ⟨Outline.resolve_bodies keeps hx, Outline.resolveAll_bodies keeps hxs⟩

end

/-- Registered formulas embed themselves and what is embedded in them, and functions nothing. -/
theorem Registry.keeps_ofExtensions {entries : List (String × Extension)}
    (h : ∀ name body, (name, Extension.formula body) ∈ entries →
      P body ∧ ∀ b ∈ body.root.bodies, P b) : (Registry.ofExtensions entries).Keeps P := by
  intro word provider hw operands before term after hall hrun
  rw [Registry.find?_ofExtensions] at hw
  obtain ⟨e, he, rfl⟩ := Option.map_eq_some_iff.mp hw
  obtain ⟨_, rfl, _⟩ := Extension.provider_run_eq_ok.mp hrun
  cases e with
  | function arity apply => exact hall
  | formula body =>
    obtain ⟨hbody, hroot⟩ := h word body (latest?_mem he)
    exact Term.forall_bodies_embedded.mpr ⟨hbody, hroot, Term.forall_bodiesAll.mp hall⟩

end Resolve

/-- A formula is sound when it and all that is embedded in it are well made. -/
def Body.Sound (b : Body Term) : Prop := b.WellMade ∧ ∀ c ∈ b.root.bodies, c.WellMade

theorem Body.Sound.inner {b c : Body Term} (h : b.Sound) (hc : c ∈ b.root.bodies) : c.Sound :=
  ⟨h.2 c hc, fun _ hd => h.2 _ (Term.bodies_trans hc hd)⟩

namespace Bindings

variable {b c : Bindings} {slot : Nat} {value : Float}

theorem size_congr (h : b.names = c.names) : b.size = c.size := by
  simpa [names, size] using congrArg List.length h

theorem set?_eq_some : b.set? slot value = some c ↔
    slot < b.size ∧ c = ⟨b.entries.modify slot fun entry => (entry.1, value)⟩ := by
  unfold set?
  by_cases h : slot < b.size
  · simp [h, eq_comm]
  · simp [h]

theorem set?_names (h : b.set? slot value = some c) : c.names = b.names := by
  obtain ⟨_, rfl⟩ := set?_eq_some.mp h
  refine List.ext_getElem? fun i => ?_
  rw [names, names, List.getElem?_map, List.getElem?_map, List.getElem?_modify]
  by_cases hi : slot = i
  · cases b.entries[i]? <;> simp [hi]
  · simp [hi]

end Bindings

theorem Formula.assign_eq_ok {f g : Formula} {name : String} {value : Float}
    (h : f.assign name value = .ok g) :
    ∃ arguments, arguments.names = f.arguments.names ∧ g = { f with arguments } := by
  unfold Formula.assign at h
  split at h
  · cases h
  next slot _ =>
    split at h
    · cases h
    · obtain rfl := Except.ok.inj h
      cases hs : f.arguments.set? slot value with
      | none => exact ⟨f.arguments, rfl, rfl⟩
      | some arguments => exact ⟨arguments, Bindings.set?_names hs, rfl⟩

/-- A property of formulas that every step of a history keeps, if what is embedded in them has it
too. -/
structure Body.Lasting (P : Body Term → Prop) : Prop where
  parsed : ∀ {registry : Registry} {source : String} {f : Formula},
    Formula.parse registry source = .ok f → (∀ c ∈ f.root.bodies, P c) → P f.toBody
  assigned : ∀ {f g : Formula} {name : String} {value : Float},
    f.assign name value = .ok g → P f.toBody → P g.toBody
  compiled : Body.CompileKeeps P
  advanced : Body.AdvanceKeeps P

/-- By induction on the history: every formula that an extension makes from formulas with the
property has it, so the formula that is parsed with these extensions has it too. -/
theorem Body.Lasting.made {P : Body Term → Prop} (lasting : Body.Lasting P)
    {given : List (Body Term)} {b : Body Term} (h : Body.Made given b)
    (hg : ∀ c ∈ given, P c ∧ ∀ d ∈ c.root.bodies, P d) : P b ∧ ∀ c ∈ b.root.bodies, P c := by
  induction h with
  | given m => exact hg _ m
  | @parsed given registry source f _ hf ih =>
    have keeps : registry.Keeps P := by
      intro word provider hw operands before term after ho hp c hc
      refine (ih word provider hw operands before term after hp c hc
        (List.forall_mem_append.mpr ⟨hg, fun d hd => ?_⟩)).1
      exact ⟨ho d hd, fun e he => ho e (Term.bodiesAll_trans hd he)⟩
    have hinner : ∀ c ∈ f.root.bodies, P c := by
      obtain ⟨_, root, arguments, hr, rfl⟩ := Formula.parse_eq_ok.mp hf
      exact Outline.resolve_bodies keeps hr
    exact ⟨lasting.parsed hf hinner, hinner⟩
  | inner _ m ih =>
    have hinner := (ih hg).2
    exact ⟨hinner _ m, fun _ hd => hinner _ (Term.bodies_trans m hd)⟩
  | assigned _ ha ih =>
    obtain ⟨hb, hinner⟩ := ih hg
    obtain ⟨arguments, _, rfl⟩ := Formula.assign_eq_ok ha
    exact ⟨lasting.assigned ha hb, hinner⟩
  | compiled _ ih =>
    obtain ⟨hb, hinner⟩ := ih hg
    have hcompiled := Term.compileEmbedded_forall lasting.compiled hinner
    exact ⟨lasting.compiled _ hb hinner hcompiled,
      Body.compile_root (P := fun t => ∀ c ∈ t.bodies, P c) hinner hcompiled⟩
  | lowered _ ha ih =>
    obtain ⟨hb, hinner⟩ := ih hg
    exact ⟨lasting.advanced _ _ hb hinner ha,
      ha.forall_bodies lasting.compiled lasting.advanced hinner⟩

theorem Body.WellMade.lasting : Body.Lasting Body.WellMade where
  parsed hf _ := by
    obtain ⟨_, root, arguments, hr, rfl⟩ := Formula.parse_eq_ok.mp hf
    exact ⟨Outline.resolve_fits hr, fun code hc => nomatch hc⟩
  assigned ha hb := by
    obtain ⟨arguments, _, rfl⟩ := Formula.assign_eq_ok ha
    exact hb
  compiled := Body.WellMade.compileKeeps
  advanced _ _ hb _ ha := hb.advance ha

theorem Body.Made.sound {given : List (Body Term)} {b : Body Term} (h : Body.Made given b)
    (hg : ∀ c ∈ given, c.Sound) : b.Sound :=
  Body.WellMade.lasting.made h hg

theorem Formula.Reachable.sound {f : Formula} (h : f.Reachable) : f.toBody.Sound :=
  Body.Made.sound h (by simp)

/-- The number of arguments that is kept is the number of the bindings. -/
def Body.Counted (b : Body Term) : Prop := b.argumentCount = b.arguments.size

/-- Parsing counts the arguments, and none is added or taken away afterwards. -/
theorem Body.Counted.lasting : Body.Lasting Body.Counted where
  parsed hf _ := by
    obtain ⟨_, root, arguments, _, rfl⟩ := Formula.parse_eq_ok.mp hf
    rfl
  assigned ha hb := by
    obtain ⟨arguments, hnames, rfl⟩ := Formula.assign_eq_ok ha
    have hsize : arguments.size = _ := Bindings.size_congr hnames
    exact hb.trans hsize.symm
  compiled b hb _ _ := by
    have harguments := congrArg Bindings.size b.compile_arguments
    exact b.compile_argumentCount.trans (hb.trans harguments.symm)
  advanced _ _ hb _ _ := hb

theorem Formula.Reachable.counted {f : Formula} (h : f.Reachable) :
    f.toBody.Counted ∧ ∀ b ∈ f.root.bodies, b.Counted :=
  Body.Counted.lasting.made h (by simp)

end Formulary
