import Formulary.Proofs.Provenance
import Formulary.Proofs.SiteOrder

namespace Formulary

/-- What a log of the accesses to the bindings says when the parsing of a source text made them in
the order of the text: it lists them all, one entry for each operand that is a name and for each
call, and each entry finds what the entries left of it registered. -/
structure TextOrder (registry : Registry) (source : String) (f : Formula) (log : List Access) :
    Prop where
  complete : ((Fragment.ofString source).outline.resolve registry).requests {} =
    log.flatMap Access.requests
  sites : log.map Access.site = (Fragment.ofString source).outline.sites
  stand : ∀ a ∈ log, a.site.StandsIn (Fragment.ofString source)
  ordered : log.Pairwise fun a b => a.site.position < b.site.position
  performed : ∀ a ∈ log, a.Performed registry
  found : ∀ before a later, log = before ++ a :: later →
    a.found = ({} : Bindings).serveAll (before.flatMap Access.requests)
  names : f.arguments.names =
    ((log.flatMap Access.requests).filterMap Request.name?).eraseDups
  values : ∀ v ∈ f.arguments.values, v = 0
  slots : ∀ a ∈ log, ∀ place, a.site = .argument place → ∃ slot,
    ((Outline.name place).resolve registry).run a.found =
      .ok (.argument (String.ofList place.text) slot, a.found.serveAll a.requests) ∧
    f.arguments.names.idxOf? (String.ofList place.text) = some slot

/-- A name keeps the slot that its first registration gave it. -/
theorem Traced.slot?_eq_some {b : Bindings} {log : List Access} (h : Traced b log) {a : Access}
    (ha : a ∈ log) {name : String} (hr : a.requests = [.register name]) :
    (b.serveAll (log.flatMap Access.requests)).slot? name =
      some (a.found.register name).1 := by
  obtain ⟨before, later, rfl⟩ := List.append_of_mem ha
  have hfound := h.found_eq
  have hprefix : (a.found.register name).2.entries <+:
      (b.serveAll ((before ++ a :: later).flatMap Access.requests)).entries := by
    rw [List.flatMap_append, List.flatMap_cons, hr, Bindings.serveAll_append, ← hfound,
      Bindings.serveAll_append]
    exact Bindings.serveAll_prefix _ _
  exact Bindings.slot?_of_prefix hprefix (Bindings.slot?_register _ _)

/-- Slots follow the text from left to right, whatever the extensions register and although a
text is split at its last operator first. -/
theorem Formula.parse_text_order {registry : Registry} {source : String} {f : Formula}
    (h : Formula.parse registry source = .ok f) :
    TextOrder registry source f ((Fragment.ofString source).outline.accesses registry {}) := by
  obtain ⟨_, root, arguments, hrun, rfl⟩ := Formula.parse_eq_ok.mp h
  have harguments := Outline.resolve_serveAll hrun
  have htraced : Traced {} ((Fragment.ofString source).outline.accesses registry {}) :=
    Outline.accesses_traced _ _
  obtain ⟨hsites, hperformed⟩ := Outline.accesses_sites hrun
  have hordered := (Fragment.ofString source).sites_ordered
  rw [← hsites] at hordered
  refine ⟨Outline.resolve_requests _ _, hsites, ?_, ?_, hperformed, ?_, ?_, ?_, ?_⟩
  · exact fun a ha => hordered.stand a.site (List.mem_map_of_mem ha)
  · exact (List.pairwise_map (f := Access.site)).mp hordered.ordered
  · intro before a later hlog
    rw [hlog] at htraced
    exact htraced.found_eq
  · rw [harguments]
    exact Bindings.serveAll_names _
  · rw [harguments]
    exact Bindings.serveAll_zero (by simp [Bindings.values]) _
  · intro a ha place hplace
    have hreq : a.requests = [.register (String.ofList place.text)] := by
      have hp := hperformed a ha
      rwa [Access.Performed, hplace] at hp
    refine ⟨(a.found.register (String.ofList place.text)).1, ?_, ?_⟩
    · rw [hreq]
      exact Outline.resolve_name_eq_ok.mpr ⟨rfl, rfl⟩
    · rw [← Bindings.slot?_eq_idxOf?, harguments]
      exact htraced.slot?_eq_some ha hreq

/-- Registers a name of its own and drops its operands. -/
def clock : Provider := fun _ => do
  let slot ← Build.slot "time"
  return .argument "time" slot

def clocks : Registry := ({} : Registry).add "now" clock

/-- The formula "y-now(x)*z", parsed with this provider. -/
def timed : Formula :=
  ⟨⟨"y-now(x)*z", .binary .sub (.argument "y" 0)
    (.binary .mul (.argument "time" 2) (.argument "z" 3)),
    ⟨[("y", 0), ("x", 0), ("time", 0), ("z", 0)]⟩, 4, none⟩, clocks⟩

theorem parse_timed : Formula.parse clocks "y-now(x)*z" = .ok timed := by with_unfolding_all rfl

theorem timed_text_order : Formula.parse clocks "y-now(x)*z" = .ok timed ∧
    timed.arguments.names = ["y", "x", "time", "z"] ∧
    TextOrder clocks "y-now(x)*z" timed
      ((Fragment.ofString "y-now(x)*z").outline.accesses clocks {}) :=
  ⟨parse_timed, rfl, Formula.parse_text_order parse_timed⟩

end Formulary
