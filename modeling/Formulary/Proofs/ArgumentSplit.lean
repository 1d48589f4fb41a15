import Formulary.Proofs.CallArity
import Formulary.Proofs.ScanPattern

namespace Formulary

section Pieces

variable {text u v : List Char} {depth : Nat}

theorem commaPieces_comma (rest : List Char) :
    commaPieces 0 (',' :: rest) = ([], (commaPieces 0 rest).1 :: (commaPieces 0 rest).2) := rfl

theorem commaPieces_char {c : Char} {rest : List Char} (hc : ¬(c = ',' ∧ depth = 0)) :
    commaPieces depth (c :: rest) = (c :: (commaPieces (depthAfter depth c) rest).1,
      (commaPieces (depthAfter depth c) rest).2) := by
  simp only [commaPieces, if_neg hc]

/-- Between the pieces stood commas. -/
theorem commaPieces_intercalate (depth : Nat) (text : List Char) :
    [','].intercalate ((commaPieces depth text).1 :: (commaPieces depth text).2) = text := by
  induction text generalizing depth with
  | nil => rfl
  | cons c rest ih =>
    by_cases hc : c = ',' ∧ depth = 0
    · obtain ⟨rfl, rfl⟩ := hc
      rw [commaPieces_comma, List.intercalate_cons_cons, ih]
      rfl
    · have hrest := ih (depthAfter depth c)
      rw [commaPieces_char hc]
      cases hlater : (commaPieces (depthAfter depth c) rest).2 with
      | nil =>
        rw [hlater, List.intercalate_singleton] at hrest
        rw [List.intercalate_singleton, hrest]
      | cons next others =>
        rw [hlater, List.intercalate_cons_cons] at hrest
        rw [List.intercalate_cons_cons, List.cons_append, List.cons_append, hrest]

/-- The first piece is not cut any further. -/
theorem commaPieces_first (depth : Nat) (text : List Char) :
    (commaPieces depth (commaPieces depth text).1).2 = [] := by
  induction text generalizing depth with
  | nil => rfl
  | cons c rest ih =>
    by_cases hc : c = ',' ∧ depth = 0
    · obtain ⟨rfl, rfl⟩ := hc
      rfl
    · rw [commaPieces_char hc, commaPieces_char hc, ih]

/-- A text that is not cut stays in one piece with what follows it. -/
theorem commaPieces_append_of_whole (h : (commaPieces depth u).2 = []) :
    commaPieces depth (u ++ v) =
      (u ++ (commaPieces (depthBehind depth u) v).1, (commaPieces (depthBehind depth u) v).2) := by
  induction u generalizing depth with
  | nil => rfl
  | cons c rest ih =>
    by_cases hc : c = ',' ∧ depth = 0
    · obtain ⟨rfl, rfl⟩ := hc
      cases h
    · rw [commaPieces_char hc] at h
      rw [List.cons_append, commaPieces_char hc, ih h, depthBehind_cons, List.cons_append]

/-- Balanced texts without an outer comma are what their join is cut into. -/
theorem commaPieces_of_intercalate {first : List Char} {others : List (List Char)}
    (h : ∀ t ∈ first :: others, Balanced t ∧ outerCommas t = 0) :
    commaPieces 0 ([','].intercalate (first :: others)) = (first, others) := by
  induction others generalizing first with
  | nil =>
    obtain ⟨hbalance, hcommas⟩ := h first List.mem_cons_self
    rw [hbalance.outerCommas_eq, List.length_eq_zero_iff] at hcommas
    have hfirst := commaPieces_append_of_whole (v := []) hcommas
    rw [hbalance.depthBehind_eq, List.append_nil] at hfirst
    rw [List.intercalate_singleton, hfirst, commaPieces, List.append_nil]
  | cons next others ih =>
    obtain ⟨⟨hbalance, hcommas⟩, hlater⟩ := List.forall_mem_cons.mp h
    rw [hbalance.outerCommas_eq, List.length_eq_zero_iff] at hcommas
    rw [List.intercalate_cons_cons, List.append_assoc, commaPieces_append_of_whole hcommas,
      hbalance.depthBehind_eq, List.singleton_append, commaPieces]
    simp [depthAfter, ih hlater]

theorem placeFrom_text (offset : Nat) (texts : List (List Char)) :
    (placeFrom offset texts).map Fragment.text = texts := by
  induction texts generalizing offset with
  | nil => rfl
  | cons text rest ih => rw [placeFrom, List.map_cons, ih]

theorem Fragment.pieces_text (f : Fragment) :
    f.pieces.map Fragment.text = (commaPieces 0 f.text).1 :: (commaPieces 0 f.text).2 :=
  placeFrom_text _ _

theorem Fragment.pieces_outerCommas {f : Fragment} (h : Balanced f.text) :
    ∀ g ∈ f.pieces, outerCommas g.text = 0 := by
  induction f using Fragment.piecesInduction with
  | single f hp =>
    have htext := f.pieces_text
    rw [hp] at htext
    rw [hp, List.forall_mem_singleton, h.outerCommas_eq, List.length_eq_zero_iff]
    exact (List.cons.inj htext).2.symm
  | more f u v ht hu hp ih =>
    have htext := f.pieces_text
    rw [hp] at htext
    have hfirst := commaPieces_first 0 f.text
    rw [← (List.cons.inj htext).1] at hfirst
    rw [ht] at h
    obtain ⟨hleft, hright⟩ := h.split hu
    rw [hp]
    refine List.forall_mem_cons.mpr ⟨?_, ih (hright.tail (by decide))⟩
    rw [hleft.outerCommas_eq, List.length_eq_zero_iff]
    exact hfirst

end Pieces

namespace ByteScan

section Split

variable {bytes text : List Char} {span : Span} {pieces : List (List Char)}

/-- The arguments of a span are consecutive spans with one byte between neighbours, and the bytes
of these are the given pieces. -/
def SplitsInto (bytes : List Char) (span : Span) (pieces : List (List Char)) : Prop :=
  arguments? bytes span = some (spansFrom span.start pieces) ∧
    (spansFrom span.start pieces).mapM (fun s => slice? bytes s.start s.stop) = some pieces

/-- What is placed side by side with commas between is read back. -/
theorem mapM_slice?_spansFrom {u v : List Char}
    (hb : bytes = u ++ [','].intercalate pieces ++ v) :
    (spansFrom u.length pieces).mapM (fun s => slice? bytes s.start s.stop) = some pieces := by
  induction pieces generalizing u with
  | nil => rfl
  | cons piece rest ih =>
    rw [spansFrom, List.mapM_cons]
    cases rest with
    | nil =>
      rw [List.intercalate_singleton] at hb
      rw [slice?_eq_some hb rfl rfl]
      rfl
    | cons next others =>
      rw [List.intercalate_cons_cons] at hb
      have hpiece : slice? bytes u.length (u.length + piece.length) = some piece :=
        slice?_eq_some (v := [','] ++ [','].intercalate (next :: others) ++ v)
          (by rw [hb]; simp only [List.append_assoc]) rfl rfl
      have hlater := ih (u := u ++ piece ++ [',']) (by rw [hb]; simp only [List.append_assoc])
      rw [List.length_append, List.length_append, List.length_singleton] at hlater
      rw [hpiece, hlater]
      rfl

theorem arguments?_of_blank (hslice : slice? bytes span.start span.stop = some text)
    (hblank : text.all isBlank = true) : arguments? bytes span = some [] := by
  obtain ⟨u, v, hb, hu, hv⟩ := slice?_eq_some_iff.mp hslice
  have htrim : trim? bytes span = some _ := trim?_eq hb hu hv
  rw [trim_eq_nil.mpr hblank] at htrim
  rw [arguments?, htrim]
  exact if_pos rfl

theorem arguments?_of_not_blank (hslice : slice? bytes span.start span.stop = some text)
    (h : Balanced text) (hblank : ¬text.all isBlank = true) :
    arguments? bytes span =
      some (spansFrom span.start ((commaPieces 0 text).1 :: (commaPieces 0 text).2)) := by
  obtain ⟨u, v, hb, hu, hv⟩ := slice?_eq_some_iff.mp hslice
  have htrim : trim? bytes span = some _ := trim?_eq hb hu hv
  have hpos := List.length_pos_iff.mpr (mt trim_eq_nil.mp hblank)
  rw [arguments?, htrim, Option.bind_eq_bind, Option.bind_some]
  rw [if_neg (by simp only; omega), piecesFrom?_eq h hb hu hv, spansFrom]

theorem splitsInto_of_commaPieces (hslice : slice? bytes span.start span.stop = some text)
    (h : Balanced text) (hblank : ¬text.all isBlank = true) :
    SplitsInto bytes span ((commaPieces 0 text).1 :: (commaPieces 0 text).2) := by
  refine ⟨arguments?_of_not_blank hslice h hblank, ?_⟩
  obtain ⟨u, v, hb, hu, _⟩ := slice?_eq_some_iff.mp hslice
  rw [hu]
  exact mapM_slice?_spansFrom (v := v) (by rw [commaPieces_intercalate, hb])

/-- A balanced span of blanks has no arguments. Any other is cut at its outer commas and nowhere
else, so that the pieces and commas between them make up the span. On texts that are balanced and
have no outer comma, cutting undoes joining, but for a single blank text. -/
theorem splitting_undoes_joining (hslice : slice? bytes span.start span.stop = some text)
    (h : Balanced text) :
    (text.all isBlank = true → SplitsInto bytes span []) ∧
    (¬text.all isBlank = true → ∃ pieces, SplitsInto bytes span pieces ∧
      [','].intercalate pieces = text ∧ (∀ p ∈ pieces, Balanced p ∧ outerCommas p = 0) ∧
      pieces.length = outerCommas text + 1 ∧
      ∀ offset, (Fragment.mk offset text).arguments.map Fragment.text = pieces) ∧
    ∀ texts, (∀ t ∈ texts, Balanced t ∧ outerCommas t = 0) →
      (∀ t, texts = [t] → ¬t.all isBlank = true) → [','].intercalate texts = text →
      SplitsInto bytes span texts := by
  have hnone : text.all isBlank = true → SplitsInto bytes span [] :=
    fun hblank => ⟨arguments?_of_blank hslice hblank, rfl⟩
  refine ⟨hnone, fun hblank => ⟨(commaPieces 0 text).1 :: (commaPieces 0 text).2,
    splitsInto_of_commaPieces hslice h hblank, commaPieces_intercalate 0 text, ?_, ?_, ?_⟩, ?_⟩
  · have hbalance := Fragment.pieces_balanced (f := ⟨0, text⟩) h
    have hcommas := Fragment.pieces_outerCommas (f := ⟨0, text⟩) h
    have htexts : (Fragment.pieces ⟨0, text⟩).map Fragment.text = _ := Fragment.pieces_text _
    intro p hp
    rw [← htexts] at hp
    obtain ⟨g, hg, rfl⟩ := List.mem_map.mp hp
    exact ⟨hbalance g hg, hcommas g hg⟩
  · rw [List.length_cons, h.outerCommas_eq]
  · intro offset
    rw [Fragment.arguments_eq, if_neg hblank, Fragment.pieces_text]
  · intro texts htexts hsingle hjoin
    cases texts with
    | nil =>
      subst hjoin
      exact hnone rfl
    | cons first others =>
      have hblank : ¬text.all isBlank = true := by
        cases others with
        | nil =>
          rw [List.intercalate_singleton] at hjoin
          exact hjoin ▸ hsingle first rfl
        | cons next rest =>
          rw [List.intercalate_cons_cons] at hjoin
          intro hall
          have hcomma : ',' ∈ text := by rw [← hjoin]; simp
          exact absurd (List.all_eq_true.mp hall _ hcomma) (by decide)
      have hcut := commaPieces_of_intercalate htexts
      rw [hjoin] at hcut
      have hsplit := splitsInto_of_commaPieces hslice h hblank
      rwa [hcut] at hsplit

/-- The comma within the inner call is none to cut at, and nothing between commas is a piece. -/
theorem nestedCall_splitting :
    slice? "f(g(a,b),, c)".toList 2 12 = some "g(a,b),, c".toList ∧
      Balanced "g(a,b),, c".toList ∧ outerCommas "g(a,b),, c".toList = 2 ∧
      SplitsInto "f(g(a,b),, c)".toList ⟨2, 12⟩ ["g(a,b)".toList, [], " c".toList] ∧
      ∃ pieces, SplitsInto "f(g(a,b),, c)".toList ⟨2, 12⟩ pieces ∧
        [','].intercalate pieces = "g(a,b),, c".toList := by
  have hslice : slice? "f(g(a,b),, c)".toList 2 12 = some "g(a,b),, c".toList := by decide
  have hbalance : ∀ s : String, (Fragment.ofString s).requireBalance = .ok () →
      Balanced s.toList := fun s => Fragment.requireBalance_eq_ok_iff.mp
  have hwhole : Balanced "g(a,b),, c".toList := hbalance _ (by with_unfolding_all rfl)
  have hinner : Balanced "g(a,b)".toList := hbalance _ (by with_unfolding_all rfl)
  have hlast : Balanced " c".toList := hbalance _ (by with_unfolding_all rfl)
  have htexts : ∀ t ∈ ["g(a,b)".toList, [], " c".toList], Balanced t ∧ outerCommas t = 0 := by
    simp only [List.forall_mem_cons]
    exact ⟨⟨hinner, by decide⟩, ⟨.nil, by decide⟩, ⟨hlast, by decide⟩, fun _ h => nomatch h⟩
  obtain ⟨_, hsplit, hjoined⟩ := @splitting_undoes_joining _ _ ⟨2, 12⟩ hslice hwhole
  obtain ⟨pieces, hpieces, hjoin, _⟩ := hsplit (by decide)
  exact ⟨hslice, hwhole, by decide,
    hjoined _ htexts (fun t ht => by cases ht) (by decide), pieces, hpieces, hjoin⟩

end Split

end ByteScan

end Formulary
