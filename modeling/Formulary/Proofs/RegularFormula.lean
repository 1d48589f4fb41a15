import Formulary.Proofs.FiniteNumber
import Formulary.Proofs.FragmentPlace
import Formulary.Proofs.ReachableFormula
import Formulary.Proofs.TableRequests
import Formulary.Proofs.TermNodes

namespace Formulary

/-- What holds of each node of a term that is parsed with some extensions: constants are finite and
take their sign with them, an argument is found by its name at its slot, and a function is called
with a number of operands that it was registered for. A mathematical function gets at least one. -/
def Term.RegularNode (entries : List (String × Extension)) (names : List String) : Term → Prop
  | .constant value => value.isFinite = true
  | .argument name slot => isName name.toList = true ∧ names[slot]? = some name
  | .neg operand => ∀ value, operand ≠ .constant value
  | .binary .. => True
  | .call function operands => ∃ arity,
    latest? entries function.name = some (.function arity function.apply) ∧
      arity.accepts operands.length = true ∧
      ((function.name, .function arity function.apply) ∈ mathExtensions → operands ≠ [])
  | .embedded body operands => operands.length = body.argumentCount

/-- All nodes of a formula are regular, and each of its arguments occurs among them. -/
structure Body.Regular (entries : List (String × Extension)) (b : Body Term) : Prop where
  node : ∀ t ∈ b.root.nodes, t.RegularNode entries b.arguments.names
  occurs : ∀ name ∈ b.arguments.names, ∃ slot, .argument name slot ∈ b.root.nodes

/-- The formula that a text is parsed to with some extensions, also when its arguments have got
other values, or when it is compiled or lowered in some part. -/
inductive Body.ParsedWith (entries : List (String × Extension)) : Body Term → Prop
  | parsed {source : String} {f : Formula} :
    Formula.parse (.ofExtensions entries) source = .ok f → ParsedWith entries f.toBody
  | assigned {f g : Formula} {name : String} {value : Float} :
    ParsedWith entries f.toBody → f.assign name value = .ok g → ParsedWith entries g.toBody
  | compiled {b : Body Term} : ParsedWith entries b → ParsedWith entries b.compile
  | lowered {b : Body Term} {u : Term} :
    ParsedWith entries b → b.root.Advances u → ParsedWith entries { b with root := u }

/-- A formula that was parsed with functions and with formulas of this kind only. -/
inductive Body.Ordinary : Body Term → Prop
  | parsed {entries : List (String × Extension)} {b : Body Term} : b.ParsedWith entries →
    (∀ name body, (name, .formula body) ∈ entries → Ordinary body) → Ordinary b

section Definition

variable {entries : List (String × Extension)} {names : List String}

theorem Term.regularNode_definition {t : Term} :
    t.definition.RegularNode entries names ↔ t.RegularNode entries names := by
  cases t with
  | constant | argument | binary => exact Iff.rfl
  | neg operand =>
    exact forall_congr' fun value => not_congr Term.recast_eq_constant
  | call function operands =>
    simp only [Term.definition, Term.recast, Term.RegularNode, Term.recastAll_eq_map,
      List.length_map, ne_eq, List.map_eq_nil_iff]
  | embedded body operands =>
    simp only [Term.definition, Term.recast_embedded, Term.RegularNode, Term.length_recastAll,
      Body.recast]

theorem Body.regular_definition {b : Body Term} :
    b.definition.Regular entries ↔ b.Regular entries := by
  have hnodes : b.definition.root.nodes = b.root.nodes.map Term.definition := b.root.recast_nodes
  have hnames : b.definition.arguments.names = b.arguments.names := b.arguments.cleared_names
  have hnode : (∀ t ∈ b.definition.root.nodes, t.RegularNode entries b.definition.arguments.names) ↔
      ∀ t ∈ b.root.nodes, t.RegularNode entries b.arguments.names := by
    simp only [hnodes, hnames, List.forall_mem_map, Term.regularNode_definition]
  have hargument : ∀ name slot, .argument name slot ∈ b.definition.root.nodes ↔
      .argument name slot ∈ b.root.nodes := by
    intro name slot
    simp only [hnodes, List.mem_map, Term.definition, Term.recast_eq_argument, exists_eq_right]
  constructor
  · rintro ⟨h, ho⟩
    simp only [hargument, hnames] at ho
    exact ⟨hnode.mp h, ho⟩
  · rintro ⟨h, ho⟩
    refine ⟨hnode.mpr h, ?_⟩
    simpa only [hargument, hnames] using ho

theorem Body.Regular.of_definition {b c : Body Term} (h : b.Regular entries)
    (hc : c.definition = b.definition) : c.Regular entries := by
  rw [← Body.regular_definition, hc]
  exact Body.regular_definition.mpr h

end Definition

section Shape

variable {f : Fragment}

theorem Fragment.shape_number {value : Float} (h : f.shape = .number value) :
    value.isFinite = true := by
  unfold Fragment.shape Fragment.operandShape at h
  simp only at h
  repeat' split at h
  all_goals cases h
  next hrange => exact Numeral.isFinite_value hrange

theorem Fragment.shape_name {place : Fragment} (h : f.shape = .name place) :
    isName place.text = true := by
  have hlaid := f.shape_laidOut
  rw [h] at hlaid
  exact hlaid.2

end Shape

/-- The mathematical functions all need an operand. -/
theorem mathExtensions_accepts {name : String} {arity : Arity} {apply : List Float → Float}
    (h : (name, .function arity apply) ∈ mathExtensions) : arity.accepts 0 = false := by
  simp only [mathExtensions, List.mem_append, List.mem_map, List.mem_cons, Prod.mk.injEq,
    Extension.function.injEq, List.not_mem_nil, or_false] at h
  rcases h with ⟨_, _, _, rfl, _⟩ | ⟨_, rfl, _⟩ | ⟨_, rfl, _⟩ <;> rfl

/-- The nodes made between two states of the bindings: they are regular, and each name that is new
occurs among them. -/
structure RegularNodes (entries : List (String × Extension)) (b c : Bindings)
    (nodes : List Term) : Prop where
  grows : b.entries <+: c.entries
  node : ∀ t ∈ nodes, t.RegularNode entries c.names
  occurs : ∀ name ∈ c.names, name ∈ b.names ∨ ∃ slot, .argument name slot ∈ nodes

section Resolve

variable {entries : List (String × Extension)} {b c d : Bindings} {t : Term}

theorem Term.RegularNode.mono (h : t.RegularNode entries b.names)
    (grows : b.entries <+: c.entries) : t.RegularNode entries c.names := by
  cases t with
  | argument name slot =>
    obtain ⟨hname, hslot⟩ := h
    obtain ⟨later, hlater⟩ : b.names <+: c.names := grows.map Prod.fst
    refine ⟨hname, ?_⟩
    rw [← hlater, List.getElem?_append_left (List.getElem?_eq_some_iff.mp hslot).1, hslot]
  | constant | neg | binary | call | embedded => exact h

namespace RegularNodes

variable {nodes later : List Term}

theorem nil : RegularNodes entries b b [] :=
  ⟨List.prefix_rfl, by simp, fun _ hn => Or.inl hn⟩

theorem cons (ht : t.RegularNode entries c.names) (h : RegularNodes entries b c nodes) :
    RegularNodes entries b c (t :: nodes) := by
  refine ⟨h.grows, List.forall_mem_cons.mpr ⟨ht, h.node⟩, fun name hn => ?_⟩
  exact (h.occurs name hn).imp_right fun ⟨slot, hs⟩ => ⟨slot, List.mem_cons_of_mem t hs⟩

theorem append (h : RegularNodes entries b c nodes) (h' : RegularNodes entries c d later) :
    RegularNodes entries b d (nodes ++ later) := by
  refine ⟨h.grows.trans h'.grows, List.forall_mem_append.mpr ⟨?_, h'.node⟩, fun name hn => ?_⟩
  · exact fun t ht => (h.node t ht).mono h'.grows
  · rcases h'.occurs name hn with hc | ⟨slot, hs⟩
    · exact (h.occurs name hc).imp_right fun ⟨slot, hs⟩ => ⟨slot, List.mem_append_left later hs⟩
    · exact Or.inr ⟨slot, List.mem_append_right nodes hs⟩

theorem argument {name : String} (hname : isName name.toList = true) :
    RegularNodes entries b (b.register name).2 [.argument name (b.register name).1] := by
  refine ⟨b.register_prefix name, List.forall_mem_singleton.mpr ⟨hname, ?_⟩, fun other ho => ?_⟩
  · exact Bindings.names_getElem?_of_slot? (b.slot?_register name)
  · rw [Bindings.register_names, List.mem_append] at ho
    refine ho.imp_right fun hnew => ⟨(b.register name).1, ?_⟩
    split at hnew
    · simp at hnew
    · obtain rfl := List.mem_singleton.mp hnew
      exact List.mem_singleton_self _

/-- A sign goes into a constant and stands before everything else. -/
theorem negate (h : RegularNodes entries b c t.nodes) :
    RegularNodes entries b c t.negate.nodes := by
  cases t with
  | constant value =>
    obtain ⟨grows, hnode, occurs⟩ := h
    have hvalue : value.isFinite = true := hnode _ (List.mem_singleton_self _)
    -- A constant registers nothing, so a name of `c` that is not in `b` has nowhere to occur.
    refine ⟨grows, List.forall_mem_singleton.mpr (isFinite_neg hvalue), fun name hn => ?_⟩
    refine (occurs name hn).imp_right ?_
    rintro ⟨slot, hs⟩
    simp [Term.nodes] at hs
  | argument | neg | binary | call | embedded =>
    refine h.cons fun value hvalue => ?_
    cases hvalue

end RegularNodes

theorem Extension.term_regular {word : String} {e : Extension} {operands : List Term}
    (he : latest? entries word = some e) (ha : e.arity.accepts operands.length = true)
    (h : RegularNodes entries b c (Term.nodesAll operands)) :
    RegularNodes entries b c (e.term word operands).nodes := by
  cases e with
  | function arity apply =>
    refine h.cons ⟨arity, he, ha, fun hmath => ?_⟩
    rintro rfl
    rw [Extension.arity, List.length_nil, mathExtensions_accepts hmath] at ha
    exact absurd ha (by simp)
  | formula body =>
    have hcount : operands.length = body.argumentCount := of_decide_eq_true ha
    exact h.cons hcount

theorem Outline.resolveAll_regular {fragments : List Fragment} {operands : List Term}
    (h : ∀ f ∈ fragments, ∀ {b c : Bindings} {t : Term},
      (f.outline.resolve (.ofExtensions entries)).run b = .ok (t, c) →
        RegularNodes entries b c t.nodes)
    (hrun : (Outline.resolveAll (.ofExtensions entries) (fragments.map Fragment.outline)).run b =
      .ok (operands, c)) : RegularNodes entries b c (Term.nodesAll operands) := by
  induction fragments generalizing b operands with
  | nil =>
    obtain ⟨rfl, rfl⟩ := Outline.resolveAll_nil_eq_ok.mp hrun
    exact .nil
  | cons f rest ih =>
    obtain ⟨x, xs, middle, hx, hxs, rfl⟩ := Outline.resolveAll_cons_eq_ok.mp hrun
    obtain ⟨hfirst, hrest⟩ := List.forall_mem_cons.mp h
    exact (hfirst hx).append (ih hrest hxs)

/-- By induction along the parts: whatever its shape is, the term of a fragment is made from those
of its parts with nodes that are regular. -/
theorem Fragment.resolve_regular {f : Fragment}
    (h : (f.outline.resolve (.ofExtensions entries)).run b = .ok (t, c)) :
    RegularNodes entries b c t.nodes := by
  induction f using Fragment.partsInduction generalizing b c t with
  | whole f hpart =>
    rw [Fragment.outline_eq] at h
    cases hs : f.shape with
    | fault cause place =>
      rw [hs] at h
      exact absurd h Outline.resolve_fault_ne_ok
    | number value =>
      rw [hs] at h
      obtain ⟨rfl, rfl⟩ := Outline.resolve_number_eq_ok.mp h
      exact RegularNodes.nil.cons (Fragment.shape_number hs)
    | name place =>
      rw [hs] at h
      obtain ⟨rfl, rfl⟩ := Outline.resolve_name_eq_ok.mp h
      refine .argument ?_
      rw [String.toList_ofList]
      exact Fragment.shape_name hs
    | plus operand =>
      rw [hs] at h hpart
      exact hpart operand (by simp [Shape.parts]) h
    | minus operand =>
      rw [hs] at h hpart
      obtain ⟨x, hx, rfl⟩ := Outline.resolve_minus_eq_ok.mp h
      exact (hpart operand (by simp [Shape.parts]) hx).negate
    | binary op left right =>
      rw [hs] at h hpart
      obtain ⟨x, y, middle, hx, hy, rfl⟩ := Outline.resolve_binary_eq_ok.mp h
      have hleft := hpart left (by simp [Shape.parts]) hx
      have hright := hpart right (by simp [Shape.parts]) hy
      exact (hleft.append hright).cons trivial
    | call word place arguments =>
      rw [hs] at h hpart
      obtain ⟨provider, operands, middle, hfind, hoperands, hmade, _⟩ :=
        Outline.resolve_call_eq_ok.mp h
      rw [Registry.find?_ofExtensions] at hfind
      obtain ⟨e, he, rfl⟩ := Option.map_eq_some_iff.mp hfind
      obtain ⟨haccepts, rfl, rfl⟩ := Extension.provider_run_eq_ok.mp hmade
      exact Extension.term_regular he haccepts (Outline.resolveAll_regular hpart hoperands)

end Resolve

section Parse

variable {entries : List (String × Extension)}

theorem Formula.parse_nodes {source : String} {f : Formula}
    (h : Formula.parse (.ofExtensions entries) source = .ok f) : f.toBody.Regular entries := by
  obtain ⟨_, root, arguments, hrun, rfl⟩ := Formula.parse_eq_ok.mp h
  have hregular := Fragment.resolve_regular hrun
  refine ⟨hregular.node, fun name hn => (hregular.occurs name hn).resolve_left ?_⟩
  simp [Bindings.names]

theorem Body.ParsedWith.regular {b : Body Term} (h : b.ParsedWith entries) :
    b.Regular entries := by
  induction h with
  | parsed hf => exact Formula.parse_nodes hf
  | assigned _ ha ih =>
    obtain ⟨arguments, hnames, rfl⟩ := Formula.assign_eq_ok ha
    refine ih.of_definition ?_
    rw [Body.definition, Body.definition, Body.recast, Body.recast, Bindings.cleared_eq hnames]
  | @compiled b _ ih => exact ih.of_definition b.compile_recast
  | lowered _ ha ih =>
    refine ih.of_definition ?_
    rw [Body.definition, Body.definition, Body.recast, Body.recast, ha.recast]

theorem Body.Ordinary.compile {b : Body Term} (h : b.Ordinary) : b.compile.Ordinary := by
  obtain ⟨hb, hentries⟩ := h
  exact .parsed hb.compiled hentries

theorem Body.Ordinary.advance {b : Body Term} {u : Term} (h : b.Ordinary)
    (ha : b.root.Advances u) : ({ b with root := u } : Body Term).Ordinary := by
  obtain ⟨hb, hentries⟩ := h
  exact .parsed (hb.lowered ha) hentries

theorem Body.ParsedWith.inner {b : Body Term} (h : b.ParsedWith entries)
    (hentries : ∀ name body, (name, Extension.formula body) ∈ entries →
      body.Ordinary ∧ ∀ c ∈ body.root.bodies, c.Ordinary) : ∀ c ∈ b.root.bodies, c.Ordinary := by
  have compiling : Body.CompileKeeps Body.Ordinary := fun _ hb _ _ => hb.compile
  have advancing : Body.AdvanceKeeps Body.Ordinary := fun _ _ hb _ ha => hb.advance ha
  induction h with
  | parsed hf =>
    obtain ⟨_, root, arguments, hrun, rfl⟩ := Formula.parse_eq_ok.mp hf
    -- What a parsed root embeds is a registered formula or is embedded in one.
    exact Outline.resolve_bodies (Registry.keeps_ofExtensions hentries) hrun
  | assigned _ ha ih =>
    obtain ⟨arguments, _, rfl⟩ := Formula.assign_eq_ok ha
    exact ih
  | compiled _ ih =>
    exact Body.compile_root (P := fun t => ∀ c ∈ t.bodies, c.Ordinary) ih
      (Term.compileEmbedded_forall compiling ih)
  | lowered _ ha ih => exact ha.forall_bodies compiling advancing ih

/-- All that is embedded in an ordinary formula, at any depth, is ordinary. -/
theorem Body.Ordinary.inner {b : Body Term} (h : b.Ordinary) : ∀ c ∈ b.root.bodies, c.Ordinary := by
  induction h with
  | parsed hb hentries ih =>
    exact hb.inner fun name body m => ⟨hentries name body m, ih name body m⟩

/-- The shape of a formula that is parsed with functions and formulas as its extensions: all its
nodes are regular, and each argument occurs. The same holds of a formula embedded at any depth, for
the extensions that it was parsed with itself; and there are such, if they are all formulas that
were parsed in this way. -/
theorem Formula.parse_regular {source : String} {f : Formula}
    (h : Formula.parse (.ofExtensions entries) source = .ok f) :
    f.toBody.Regular entries ∧ ∀ b ∈ f.root.bodies,
      (∀ known, b.ParsedWith known → b.Regular known) ∧
      ((∀ name body, (name, .formula body) ∈ entries → body.Ordinary) →
        ∃ known, b.ParsedWith known) := by
  refine ⟨Formula.parse_nodes h, fun b hb => ⟨fun _ hparsed => hparsed.regular, fun hall => ?_⟩⟩
  have hinner := (Body.ParsedWith.parsed h).inner fun name body m =>
    ⟨hall name body m, (hall name body m).inner⟩
  obtain ⟨hparsed, _⟩ := hinner b hb
  exact ⟨_, hparsed⟩

end Parse

/-- The formula "max(x,-y)". -/
def peak : Formula :=
  ⟨⟨"max(x,-y)", .call ⟨"max", greatest⟩ [.argument "x" 0, .neg (.argument "y" 1)],
    ⟨[("x", 0), ("y", 0)]⟩, 2, none⟩, .ofExtensions mathExtensions⟩

theorem parse_peak : Formula.parse (.ofExtensions mathExtensions) "max(x,-y)" = .ok peak := by
  with_unfolding_all rfl

def peakExtensions : List (String × Extension) :=
  mathExtensions ++ [("peak", .formula peak.toBody)]

/-- The formula "peak(z,-abs(z))". -/
def steep : Formula :=
  ⟨⟨"peak(z,-abs(z))", .embedded peak.toBody [.argument "z" 0,
      .neg (.call ⟨"abs", applyUnary Float.abs⟩ [.argument "z" 0])],
    ⟨[("z", 0)]⟩, 1, none⟩, .ofExtensions peakExtensions⟩

theorem parse_steep :
    Formula.parse (.ofExtensions peakExtensions) "peak(z,-abs(z))" = .ok steep := by
  with_unfolding_all rfl

theorem peakExtensions_ordinary :
    ∀ name body, (name, .formula body) ∈ peakExtensions → body.Ordinary := by
  intro name body hm
  obtain ⟨_, rfl⟩ : name = "peak" ∧ body = peak.toBody := by
    simpa [peakExtensions, mathExtensions] using hm
  exact .parsed (.parsed parse_peak) (by simp [mathExtensions])

theorem steep_regular : Formula.parse (.ofExtensions peakExtensions) "peak(z,-abs(z))" = .ok steep ∧
    (∀ name body, (name, .formula body) ∈ peakExtensions → body.Ordinary) ∧
    steep.toBody.Regular peakExtensions ∧ peak.toBody ∈ steep.root.bodies ∧
    ∀ b ∈ steep.root.bodies, ∃ known, b.ParsedWith known ∧ b.Regular known := by
  obtain ⟨hsteep, hinner⟩ := Formula.parse_regular parse_steep
  refine ⟨parse_steep, peakExtensions_ordinary, hsteep, List.mem_cons_self, fun b hb => ?_⟩
  obtain ⟨hregular, hparsed⟩ := hinner b hb
  obtain ⟨known, hknown⟩ := hparsed peakExtensions_ordinary
  exact ⟨known, hknown, hregular known hknown⟩

end Formulary
