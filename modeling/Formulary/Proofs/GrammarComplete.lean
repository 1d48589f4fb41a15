import Formulary.Proofs.Grammar
import Formulary.Proofs.PhraseOutline
import Formulary.Proofs.SlotBounds

namespace Formulary

section Trim

variable {ws core later text : List Char} {level : Level} {f : Fragment}

/-- Blanks around a token are trimmed off, and nothing else is. -/
theorem trim_token (hws : Blanks ws) (hhead : core.head?.any (fun c => !isBlank c) = true)
    (hlast : core.getLast?.any (fun c => !isBlank c) = true) (hlater : Blanks later) :
    trim isBlank (ws ++ core ++ later) = core :=
  (trim_append hws hlater).trans (trim_of_ends hhead hlast)

theorem getLast?_close (text : List Char) :
    (text ++ [')']).getLast?.any (fun c => !isBlank c) = true := by
  rw [List.getLast?_concat]
  rfl

theorem trim_signed {sign : Char} (hws : Blanks ws) (hs : isPlusMinus sign = true)
    (hne : ∃ c ∈ text, isBlank c = false) :
    trim isBlank (ws ++ sign :: text) = sign :: trimEnd isBlank text := by
  have hsign : isBlank sign = false := by
    rcases isPlusMinus_cases hs with rfl | rfl <;> rfl
  have h := trim_append (v := []) (w := sign :: text) hws (by simp)
  rw [List.append_nil] at h
  rw [h, trim, List.dropWhile_cons_of_neg (by simp [hsign]), ← List.singleton_append,
    trimEnd_append_of_exists hne, List.singleton_append]

theorem Phrase.not_mem_mask_trim (h : Phrase level text) (hl : level.rank ≤ Level.signed.rank)
    (hf : Alike f.text text) (op : Operator) : some op.symbol ∉ mask f.trim.text := by
  intro hop
  rw [show f.trim.text = trim isBlank text from hf] at hop
  exact h.shows.not_mem hl op (mem_mask_of_trim hop)

end Trim

variable {entries : List (String × Extension)}

theorem DerivesAll.eq_of_nil {b c : Bindings} {text : List Char} {operands : List Term}
    (h : DerivesAll entries b text operands c) (hnil : operands = []) : Blanks text ∧ c = b := by
  cases h with
  | none hblank => exact ⟨hblank, rfl⟩
  | one => simp at hnil
  | more => simp at hnil

theorem DerivesAll.inhabited {b c : Bindings} {text : List Char} {operands : List Term}
    (h : DerivesAll entries b text operands c) (hne : operands ≠ []) :
    ∃ c ∈ text, isBlank c = false := by
  cases h with
  | none => exact absurd rfl hne
  | one hd => exact hd.phrase.inhabited
  | more hd =>
    obtain ⟨c, hc, hb⟩ := hd.phrase.inhabited
    exact ⟨c, List.mem_append_left _ hc, hb⟩

mutual

/-- What the grammar derives is parsed, to the term and the bindings that it derives. -/
theorem Derives.resolve {level : Level} {b c : Bindings} {text : List Char} {t : Term}
    (h : Derives entries level b text t c) {f : Fragment} (hf : Alike f.text text) :
    (f.outline.resolve (Registry.ofExtensions entries)).run b = .ok (t, c) := by
  match h with
  | .loosen hd _ => exact hd.resolve hf
  | @Derives.binary _ op b middle c u v x y hu hv =>
    obtain ⟨l, r, ho, hl, hr⟩ := Fragment.outline_binary hu.phrase hv.phrase hf
    rw [ho]
    exact Outline.resolve_binary_eq_ok.mpr ⟨x, y, middle, hu.resolve hl, hv.resolve hr, rfl⟩
  | @Derives.plus _ b c ws text t hws hd =>
    have htrim : f.trim.text = '+' :: trimEnd isBlank text :=
      hf.trans (trim_signed hws rfl hd.phrase.inhabited)
    have hshow := (Derives.plus hws hd).phrase.not_mem_mask_trim (Nat.le_refl _) hf
    refine (Fragment.resolve_plus htrim hshow).mpr (hd.resolve ?_)
    rw [Alike, Fragment.after_sign htrim]
    exact trim_trimEnd isBlank text
  | @Derives.minus _ b c ws text x hws hd =>
    have htrim : f.trim.text = '-' :: trimEnd isBlank text :=
      hf.trans (trim_signed hws rfl hd.phrase.inhabited)
    have hshow := (Derives.minus hws hd).phrase.not_mem_mask_trim (Nat.le_refl _) hf
    refine (Fragment.resolve_minus htrim hshow).mpr ⟨x, hd.resolve ?_, rfl⟩
    rw [Alike, Fragment.after_sign htrim]
    exact trim_trimEnd isBlank text
  | @Derives.group _ b c ws text later t hws hd hlater =>
    have htrim : f.trim.text = '(' :: (text ++ [')']) :=
      hf.trans (trim_token hws rfl (getLast?_close ('(' :: text)) hlater)
    rw [Fragment.outline_group hd.phrase.balanced htrim]
    exact hd.resolve rfl
  | @Derives.literal _ b ws text later d hws hlit hfinite hlater =>
    have htrim : f.trim.text = text := hf.trans (trim_token hws hlit.ends.1 hlit.ends.2 hlater)
    rw [Fragment.outline_literal hlit htrim, if_pos hfinite]
    exact Outline.resolve_number_eq_ok.mpr ⟨rfl, rfl⟩
  | @Derives.name _ b ws text later hws hname hlater =>
    have hends := isName_ends hname
    have htrim : f.trim.text = text := hf.trans (trim_token hws hends.1 hends.2 hlater)
    rw [Fragment.outline_name hname htrim, Outline.resolve_name_eq_ok, htrim]
    exact ⟨rfl, rfl⟩
  | @Derives.call _ b c ws name spaces text later e operands hws hname hs he hall ha hlater =>
    have hhead : (name ++ spaces ++ '(' :: (text ++ [')'])).head?.any (fun c => !isBlank c) =
        true := by
      obtain ⟨c, rest, rfl, _⟩ := isName_head hname
      exact (isName_ends hname).1
    have hlast : (name ++ spaces ++ '(' :: (text ++ [')'])).getLast?.any (fun c => !isBlank c) =
        true := by
      rw [← List.cons_append, ← List.append_assoc]
      exact getLast?_close _
    obtain ⟨g, hg, ho⟩ := Fragment.outline_call hname hs hall.balanced
      (hf.trans (trim_token hws hhead hlast hlater))
    -- No operands are derived from blanks only, which are no piece of their own here.
    have hargs : (Outline.resolveAll (Registry.ofExtensions entries)
        (g.arguments.map Fragment.outline)).run b = .ok (operands, c) := by
      by_cases hne : operands = []
      · obtain ⟨hblank, rfl⟩ := hall.eq_of_nil hne
        rw [Fragment.arguments_eq, hg, if_pos (List.all_eq_true.mpr hblank)]
        exact Outline.resolveAll_nil_eq_ok.mpr ⟨hne, rfl⟩
      · obtain ⟨c, hc, hb⟩ := hall.inhabited hne
        have hink : ¬text.all isBlank = true := by
          intro hblank
          have := List.all_eq_true.mp hblank c hc
          simp [hb] at this
        rw [Fragment.arguments_eq, hg, if_neg hink]
        exact hall.resolve hne hg
    have hfind : (Registry.ofExtensions entries).find? (String.ofList name) =
        some (e.provider (String.ofList name)) := by
      rw [Registry.find?_ofExtensions, he]
      rfl
    have hfits : (e.term (String.ofList name) operands).Fits c.size :=
      Extension.term_fits (Outline.resolveAll_fits hargs) ha
    rw [ho]
    exact Outline.resolve_call_eq_ok.mpr ⟨_, operands, c, hfind, hargs,
      Extension.provider_run_eq_ok.mpr ⟨ha, rfl, rfl⟩, Term.check_eq_ok.mpr hfits⟩

theorem DerivesAll.resolve {b c : Bindings} {text : List Char} {operands : List Term}
    (h : DerivesAll entries b text operands c) (hne : operands ≠ []) {f : Fragment}
    (hf : f.text = text) :
    (Outline.resolveAll (Registry.ofExtensions entries) (f.pieces.map Fragment.outline)).run b =
      .ok (operands, c) := by
  match h with
  | .none _ => exact absurd rfl hne
  | @DerivesAll.one _ b c text t hd =>
    rw [Fragment.pieces_single (hf ▸ hd.phrase)]
    exact Outline.resolveAll_cons_eq_ok.mpr ⟨t, [], c, hd.resolve (by rw [hf, Alike]),
      Outline.resolveAll_nil_eq_ok.mpr ⟨rfl, rfl⟩, rfl⟩
  | @DerivesAll.more _ b middle c text rest t second others hd hrest =>
    rw [Fragment.pieces_more hd.phrase hf]
    exact Outline.resolveAll_cons_eq_ok.mpr ⟨t, second :: others, middle, hd.resolve rfl,
      hrest.resolve (List.cons_ne_nil _ _) rfl, rfl⟩

end

end Formulary
