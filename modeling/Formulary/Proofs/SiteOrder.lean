import Formulary.Proofs.Accesses
import Formulary.Proofs.FragmentPlace

namespace Formulary

/-- A site is what it says in the text: an operand that is a name, or a call. -/
def Site.StandsIn (f : Fragment) : Site → Prop
  | .argument place => place.Within f ∧ isName place.text = true
  | .call word place arguments =>
    place.Within f ∧ ∃ g : Fragment, CallText word place.text g.text ∧ g.Within place ∧
      arguments = g.arguments.map Fragment.outline

namespace Site.StandsIn

variable {s : Site} {f g : Fragment}

theorem mono (h : s.StandsIn g) (hw : g.Within f) : s.StandsIn f := by
  cases s with
  | argument place => exact ⟨h.1.trans hw, h.2⟩
  | call word place arguments => exact ⟨h.1.trans hw, h.2⟩

theorem bounds (h : s.StandsIn f) : f.offset ≤ s.position ∧ s.position < f.stop := by
  cases s with
  | argument place =>
    obtain ⟨hw, hname⟩ := h
    obtain ⟨c, rest, htext, _⟩ := isName_head hname
    have hsize : 0 < textSize place.text := by
      rw [htext]
      exact textSize_pos (List.cons_ne_nil c rest)
    have hlow := hw.offset_le
    have hhigh := hw.stop_le
    rw [Fragment.stop] at hhigh
    show f.offset ≤ place.offset ∧ place.offset < f.stop
    omega
  | call word place arguments =>
    obtain ⟨hw, g, hcall, _, _⟩ := h
    obtain ⟨name, spaces, _, _, _, htext⟩ := hcall
    have hsize : 0 < textSize place.text := by
      rw [htext]
      exact textSize_pos (by simp)
    have hlow := hw.offset_le
    have hhigh := hw.stop_le
    show f.offset ≤ place.stop - 1 ∧ place.stop - 1 < f.stop
    rw [Fragment.stop] at hhigh ⊢
    omega

end Site.StandsIn

/-- Sites that stand in a fragment, in the order of the text. -/
structure SitesOrdered (f : Fragment) (sites : List Site) : Prop where
  stand : ∀ s ∈ sites, s.StandsIn f
  ordered : sites.Pairwise fun s t => s.position < t.position

namespace SitesOrdered

variable {f g : Fragment} {left right : List Site}

theorem nil (f : Fragment) : SitesOrdered f [] := ⟨by simp, .nil⟩

theorem single {s : Site} (h : s.StandsIn f) : SitesOrdered f [s] :=
  ⟨by simpa using h, List.pairwise_singleton _ _⟩

theorem mono (h : SitesOrdered g left) (hw : g.Within f) : SitesOrdered f left :=
  ⟨fun s hs => (h.stand s hs).mono hw, h.ordered⟩

theorem append {l r : Fragment} (hl : SitesOrdered l left) (hr : SitesOrdered r right)
    (hlf : l.Within f) (hrf : r.Within f) (hle : l.stop ≤ r.offset) :
    SitesOrdered f (left ++ right) := by
  refine ⟨List.forall_mem_append.mpr ⟨(hl.mono hlf).stand, (hr.mono hrf).stand⟩, ?_⟩
  refine List.pairwise_append.mpr ⟨hl.ordered, hr.ordered, fun s hs t ht => ?_⟩
  have hleft := (hl.stand s hs).bounds.2
  have hright := (hr.stand t ht).bounds.1
  omega

theorem concat_call {word : String} {place : Fragment} {arguments : List Outline}
    (h : SitesOrdered g left) (hg : g.Within place) (hstop : g.stop + 1 = place.stop)
    (hcall : (Site.call word place arguments).StandsIn place) :
    SitesOrdered place (left ++ [.call word place arguments]) := by
  refine ⟨List.forall_mem_append.mpr ⟨(h.mono hg).stand, by simpa using hcall⟩, ?_⟩
  refine List.pairwise_append.mpr ⟨h.ordered, List.pairwise_singleton _ _, fun s hs t ht => ?_⟩
  have hin := (h.stand s hs).bounds.2
  rw [List.mem_singleton.mp ht]
  show s.position < place.stop - 1
  omega

end SitesOrdered

/-- The sites of the arguments of a call follow the text if those of all shorter texts do. -/
theorem Fragment.sitesAll_pieces {g : Fragment}
    (ih : ∀ h : Fragment, h.text.length ≤ g.text.length → SitesOrdered h h.outline.sites) :
    SitesOrdered g (Outline.sitesAll (g.pieces.map Fragment.outline)) := by
  induction g using Fragment.piecesInduction with
  | single g hp =>
    have hself := ih g (Nat.le_refl _)
    rw [hp]
    simpa [Outline.sitesAll] using hself
  | more g u v htext _ hp step =>
    have hlen : g.text.length = u.length + (v.length + 1) := by
      rw [htext, List.length_append, List.length_cons]
    have hcomma : textSize (u ++ [',']) = textSize u + 1 := by
      rw [textSize_append]
      rfl
    have hfirst := ih ⟨g.offset, u⟩ (by simp only; omega)
    have hlater := step fun h hle => ih h (by simp only at hle; omega)
    rw [hp, List.map_cons, Outline.sitesAll]
    refine hfirst.append hlater ⟨[], ',' :: v, by simp [htext], rfl⟩
      ⟨u ++ [','], [], by simp [htext], by simp only [hcomma]; omega⟩ ?_
    show g.offset + textSize u ≤ g.offset + textSize u + 1
    omega

/-- The sites of a text follow the text, whatever operator it is split at. -/
theorem Fragment.sites_ordered (f : Fragment) : SitesOrdered f f.outline.sites := by
  induction f using Fragment.lengthInduction with
  | shorter f ih =>
    have hparts : ∀ g ∈ f.shape.parts, SitesOrdered g g.outline.sites :=
      fun g hg => ih g (Fragment.shape_parts_length_lt hg)
    have hlaid := f.shape_laidOut
    rw [Fragment.outline_eq]
    cases hs : f.shape with
    | fault cause place => exact .nil f
    | number value => exact .nil f
    | name place =>
      rw [hs] at hlaid
      exact .single hlaid
    | plus operand =>
      rw [hs] at hlaid hparts
      exact (hparts operand (by simp [Shape.parts])).mono hlaid
    | minus operand =>
      rw [hs] at hlaid hparts
      exact (hparts operand (by simp [Shape.parts])).mono hlaid
    | binary op left right =>
      rw [hs] at hlaid hparts
      obtain ⟨hl, hr, hle⟩ := hlaid
      exact (hparts left (by simp [Shape.parts])).append (hparts right (by simp [Shape.parts]))
        hl hr hle
    | call word place arguments =>
      rw [hs] at hlaid
      obtain ⟨hplace, g, hcall, hg, hstop, rfl⟩ := hlaid
      have hlen : g.text.length < f.text.length := by
        obtain ⟨name, spaces, _, _, _, htext⟩ := hcall
        have hle := hplace.length_le
        rw [htext] at hle
        simp only [List.length_append, List.length_cons] at hle
        omega
      have hargs : SitesOrdered g (Outline.sitesAll (g.arguments.map Fragment.outline)) := by
        rw [Fragment.arguments_eq]
        split
        · exact .nil g
        · exact Fragment.sitesAll_pieces fun h hh => ih h (by omega)
      exact (hargs.concat_call hg hstop ⟨.refl place, g, hcall, hg, rfl⟩).mono hplace

end Formulary
