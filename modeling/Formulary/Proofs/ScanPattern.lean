import Mathlib.Order.Bounds.Basic
import Formulary.Proofs.ByteParse
import Formulary.Proofs.Partners

namespace Formulary

/-- How many more groups are opened than closed before a position. -/
def openAt (text : List Char) (i : Nat) : Int :=
  ((text.take i).count '(' : Int) - (text.take i).count ')'

/-- A position is that of a parenthesis around a group, or it stands between the two. -/
def InGroup (text : List Char) (i : Nat) : Prop :=
  ∃ j k, Partners text j k ∧ j ≤ i ∧ i ≤ k

theorem exists_split {text : List Char} {c : Char} {i : Nat} (h : text[i]? = some c) :
    ∃ u v, text = u ++ c :: v ∧ u.length = i := by
  obtain ⟨hi, rfl⟩ := List.getElem?_eq_some_iff.mp h
  exact ⟨text.take i, text.drop (i + 1), by simp, List.length_take_of_le (Nat.le_of_lt hi)⟩

section Depth

variable {text u v inside whole : List Char} {c : Char} {i k : Nat}

theorem openAt_append (u v : List Char) (i : Nat) :
    openAt (u ++ v) (u.length + i) = openAt u u.length + openAt v i := by
  have htake : (u ++ v).take (u.length + i) = u ++ v.take i := List.take_length_add_append i
  rw [openAt, openAt, openAt, htake, List.take_length, List.count_append, List.count_append]
  omega

theorem openAt_take (v : List Char) (hi : i ≤ u.length) : openAt (u ++ v) i = openAt u i := by
  rw [openAt, openAt, List.take_append_of_le_length hi]

theorem openAt_char (ho : c ≠ '(') (hc : c ≠ ')') (i : Nat) :
    openAt (c :: text) (i + 1) = openAt text i := by
  rw [openAt, openAt, List.take_succ_cons, List.count_cons_of_ne ho, List.count_cons_of_ne hc]

theorem openAt_open (i : Nat) : openAt ('(' :: text) (i + 1) = openAt text i + 1 := by
  rw [openAt, openAt, List.take_succ_cons, List.count_cons_self,
    List.count_cons_of_ne (by decide)]
  omega

theorem openAt_close (i : Nat) : openAt (')' :: text) (i + 1) = openAt text i - 1 := by
  rw [openAt, openAt, List.take_succ_cons, List.count_cons_self,
    List.count_cons_of_ne (by decide)]
  omega

theorem NeverBelow.openAt_eq {depth : Nat} (h : NeverBelow depth text) (i : Nat) :
    (depthBehind depth (text.take i) : Int) = depth + openAt text i := by
  rw [← List.take_append_drop i text, neverBelow_append] at h
  have hcount := depthBehind_add_count h.1
  rw [openAt]
  omega

theorem Balanced.openAt_eq (h : Balanced text) (i : Nat) :
    openAt text i = depthBehind 0 (text.take i) := by
  have hdepth := (h.neverBelow 0).openAt_eq i
  omega

theorem Balanced.openAt_nonneg (h : Balanced text) (i : Nat) : 0 ≤ openAt text i := by
  rw [h.openAt_eq]
  omega

theorem Balanced.openAt_length (h : Balanced text) : openAt text text.length = 0 := by
  rw [h.openAt_eq, List.take_length, h.depthBehind_eq]
  rfl

/-- Between its parentheses a group is open. -/
theorem Balanced.openAt_group (h : Balanced inside) (v : List Char) (hi : i ≤ inside.length) :
    1 ≤ openAt ('(' :: (inside ++ ')' :: v)) (i + 1) := by
  have hinside := h.openAt_nonneg i
  rw [openAt_open, openAt_take _ hi]
  omega

/-- Behind a group there are as many open as before it. -/
theorem Balanced.openAt_behind (h : Balanced inside) (v : List Char) (i : Nat) :
    openAt ('(' :: (inside ++ ')' :: v)) (inside.length + (i + 1) + 1) = openAt v i := by
  have hlength := h.openAt_length
  rw [openAt_open, openAt_append, hlength, openAt_close]
  omega

theorem InGroup.of_append (h : InGroup text i) (ht : whole = u ++ text ++ v)
    (hk : k = u.length + i) : InGroup whole k := by
  obtain ⟨first, last, hpartners, hfirst, hlast⟩ := h
  rw [ht, hk]
  exact ⟨_, _, hpartners.append u v, by omega, by omega⟩

theorem InGroup.open_or_pos (h : InGroup text i) (hb : Balanced text) :
    text[i]? = some '(' ∨ 0 < openAt text i := by
  obtain ⟨first, last, hpartners, hfirst, hlast⟩ := h
  obtain ⟨k, rfl⟩ : ∃ k, i = first + k := ⟨i - first, by omega⟩
  cases k with
  | zero => exact Or.inl hpartners.getElem?_open
  | succ k =>
    cases hpartners with
    | @mk u inside v hinside =>
      have hbefore := hb.openAt_nonneg u.length
      rw [openAt_take _ (Nat.le_refl _)] at hbefore
      have hgroup := hinside.openAt_group v (show k ≤ inside.length by omega)
      rw [openAt_append]
      exact Or.inr (by omega)

/-- By induction on the groups of a text: what is behind a `(` and not behind its partner is in the
group. -/
theorem Balanced.inGroup (h : Balanced text) (hi : text[i]? = some '(' ∨ 0 < openAt text i) :
    InGroup text i := by
  induction h generalizing i with
  | nil => simp [openAt] at hi
  | @char c text ho hc _ ih =>
    cases i with
    | zero => simp [openAt, ho] at hi
    | succ i =>
      rw [List.getElem?_cons_succ, openAt_char ho hc] at hi
      exact (ih hi).of_append (u := [c]) (v := []) (by simp) (Nat.add_comm i 1)
  | @group inside text hinside _ _ ih =>
    by_cases hle : i ≤ 0 + 1 + inside.length
    · exact ⟨0, _, .mk (u := []) hinside, Nat.zero_le i, hle⟩
    · obtain ⟨k, rfl⟩ : ∃ k, i = inside.length + (k + 1) + 1 := ⟨i - inside.length - 2, by omega⟩
      have hsplit : '(' :: (inside ++ ')' :: text) = '(' :: (inside ++ [')']) ++ text := by simp
      have hlength : inside.length + (k + 1) + 1 = ('(' :: (inside ++ [')'])).length + k := by
        rw [List.length_cons, List.length_append, List.length_singleton]
        omega
      rw [hinside.openAt_behind, hsplit, hlength, List.getElem?_append_right (by omega),
        Nat.add_sub_cancel_left] at hi
      exact (ih hi).of_append (v := []) (by simp) hlength

theorem Balanced.inGroup_iff (h : Balanced text) :
    InGroup text i ↔ text[i]? = some '(' ∨ 0 < openAt text i :=
  ⟨fun hi => hi.open_or_pos h, h.inGroup⟩

end Depth

section Mask

variable {text : List Char} {c : Char} {i : Nat}

theorem maskFrom_getElem? (before : List Char) (depth : Nat) (text : List Char) (i : Nat) :
    (maskFrom before depth text)[i]? = text[i]?.map fun c =>
      if 0 < depthBehind depth (text.take i) ∨ c = '(' ∨
        (isPlusMinus c ∧ isSignAfter ((text.take i).reverse ++ before)) then none else some c := by
  induction text generalizing before depth i with
  | nil => rfl
  | cons d rest ih =>
    cases i with
    | zero => rfl
    | succ i =>
      rw [maskFrom, List.getElem?_cons_succ, List.getElem?_cons_succ, ih, List.take_succ_cons,
        List.reverse_cons, List.append_assoc]
      rfl

/-- Groups are hidden, and outside of them signs are. -/
theorem Balanced.mask_getElem? (h : Balanced text) (hc : text[i]? = some c) :
    ((mask text)[i]? = some none ∨ (mask text)[i]? = some (some c)) ∧
      ((mask text)[i]? = some none ↔ InGroup text i ∨
        isPlusMinus c = true ∧ openAt text i = 0 ∧ isSignAfter (text.take i).reverse = true) := by
  have hdepth := h.openAt_eq i
  rw [h.inGroup_iff, mask, maskFrom_getElem?, hc, Option.map_some, List.append_nil]
  by_cases hopen : 0 < depthBehind 0 (text.take i)
  · have hpos : 0 < openAt text i := by omega
    rw [if_pos (Or.inl hopen)]
    exact ⟨Or.inl rfl, iff_of_true rfl (Or.inl (Or.inr hpos))⟩
  · have hzero : openAt text i = 0 := by omega
    by_cases hhide : c = '(' ∨ isPlusMinus c = true ∧ isSignAfter (text.take i).reverse = true
    · rw [if_pos (Or.inr hhide)]
      refine ⟨Or.inl rfl, iff_of_true rfl ?_⟩
      exact hhide.imp (fun ho => Or.inl (congrArg some ho)) fun hs => ⟨hs.1, hzero, hs.2⟩
    · rw [if_neg (not_or.mpr ⟨hopen, hhide⟩)]
      refine ⟨Or.inr rfl, iff_of_false (by simp) fun hor => hhide ?_⟩
      rcases hor with (ho | hpos) | ⟨hpm, _, hs⟩
      · exact Or.inl (Option.some.inj ho)
      · omega
      · exact Or.inr ⟨hpm, hs⟩

end Mask

section Find

variable {α : Type} {p : α → Bool} {xs : List α} {i : Nat}

theorem lastIdx?_eq_some_iff :
    lastIdx? p xs = some i ↔ IsGreatest {i | ∃ a, xs[i]? = some a ∧ p a = true} i := by
  have greatest : ∀ {j}, lastIdx? p xs = some j →
      IsGreatest {i | ∃ a, xs[i]? = some a ∧ p a = true} j := by
    intro j hj
    obtain ⟨hmem, hlater⟩ := lastIdx?_eq_some hj
    refine ⟨hmem, ?_⟩
    rintro k ⟨a, ha, hp⟩
    by_contra hlt
    have hdrop : a ∈ xs.drop (j + 1) := by
      obtain ⟨d, rfl⟩ : ∃ d, k = j + 1 + d := ⟨k - (j + 1), by omega⟩
      rw [← List.getElem?_drop] at ha
      exact List.mem_of_getElem? ha
    rw [hlater a hdrop] at hp
    cases hp
  refine ⟨greatest, fun hi => ?_⟩
  obtain ⟨⟨a, ha, hp⟩, _⟩ := id hi
  cases hj : lastIdx? p xs with
  | none =>
    rw [lastIdx?_eq_none.mp hj a (List.mem_of_getElem? ha)] at hp
    cases hp
  | some j => rw [(greatest hj).unique hi]

theorem findIdx?_eq_some_iff :
    xs.findIdx? p = some i ↔ IsLeast {i | ∃ a, xs[i]? = some a ∧ p a = true} i := by
  rw [List.findIdx?_eq_some_iff_getElem]
  constructor
  · rintro ⟨hi, hp, hbefore⟩
    refine ⟨⟨_, List.getElem?_eq_getElem hi, hp⟩, ?_⟩
    rintro j ⟨a, ha, hpa⟩
    by_contra hlt
    obtain ⟨hj, rfl⟩ := List.getElem?_eq_some_iff.mp ha
    exact hbefore j (by omega) hpa
  · rintro ⟨⟨a, ha, hp⟩, hleast⟩
    obtain ⟨hi, rfl⟩ := List.getElem?_eq_some_iff.mp ha
    refine ⟨hi, hp, fun j hj hpj => ?_⟩
    have := hleast ⟨_, List.getElem?_eq_getElem (Nat.lt_trans hj hi), hpj⟩
    omega

end Find

namespace ByteScan

section Partner

variable {bytes : List Char} {stop i : Nat}

theorem neverBelow_of_splitGroup {depth : Nat} {text : List Char}
    (h : splitGroup depth text = none) : NeverBelow depth text := by
  induction text generalizing depth with
  | nil => trivial
  | cons c rest ih =>
    rw [splitGroup] at h
    split at h
    next => cases h
    next hc =>
      exact ⟨fun hclose => Nat.pos_of_ne_zero fun hzero => hc ⟨hclose, hzero⟩,
        ih (Option.map_eq_none_iff.mp h)⟩

/-- The partner of a `(` is the first `)` behind which no more groups are open than before the
`(`. -/
theorem closer?_least (hstop : stop ≤ bytes.length) (hi : i < stop) (hc : bytes[i]? = some '(') :
    ∃ found, closer? bytes stop i = some found ∧ ∀ j, found = some j ↔
      IsLeast {j | i < j ∧ j < stop ∧ openAt bytes (j + 1) = openAt bytes i} j := by
  obtain ⟨u, t, v, hb, hu, ht⟩ : ∃ u t v, bytes = u ++ '(' :: t ++ v ∧ i = u.length ∧
      stop = i + 1 + t.length := by
    have htake : (bytes.take stop)[i]? = some '(' := by rw [List.getElem?_take_of_lt hi, hc]
    obtain ⟨u, t, hsplit, hu⟩ := exists_split htake
    have hlength := congrArg List.length hsplit
    rw [List.length_take, List.length_append, List.length_cons] at hlength
    refine ⟨u, t, bytes.drop stop, ?_, hu.symm, by omega⟩
    rw [← hsplit, List.take_append_drop]
  -- Behind a byte of `t` the groups are as many as before the `(` if it closes one more than `t`
  -- has opened up to there.
  have hreturn : ∀ k, k < t.length →
      (openAt bytes (i + 1 + k + 1) = openAt bytes i ↔ openAt t (k + 1) = -1) := by
    intro k hk
    have hbefore : openAt bytes i = openAt u u.length := by
      rw [hb, List.append_assoc, hu, openAt_take _ (Nat.le_refl _)]
    have hbehind : openAt bytes (i + 1 + k + 1) = openAt u u.length + (openAt t (k + 1) + 1) := by
      rw [hb, List.append_assoc, hu, show u.length + 1 + k + 1 = u.length + (k + 1 + 1) by omega,
        openAt_append, List.cons_append, openAt_open, openAt_take _ (by omega)]
    omega
  refine ⟨_, closer?_eq hb hu ht, ?_⟩
  cases hs : splitGroup 0 t with
  | none =>
    intro j
    refine iff_of_false (by simp) fun hleast => ?_
    obtain ⟨⟨hij, hjs, hj⟩, _⟩ := hleast
    obtain ⟨k, rfl⟩ : ∃ k, j = i + 1 + k := ⟨j - i - 1, by omega⟩
    have hdepth := (neverBelow_of_splitGroup hs).openAt_eq (k + 1)
    rw [hreturn k (by omega)] at hj
    omega
  | some group =>
    obtain ⟨inside, later⟩ := group
    have hinside := Balanced.of_splitGroup hs
    have htext := splitGroup_eq hs
    have hlength := congrArg List.length htext
    rw [List.length_append, List.length_cons] at hlength
    have hclose : openAt t (inside.length + 1) = -1 := by
      rw [htext, openAt_append, hinside.openAt_length, openAt_close]
      rfl
    have hleast : IsLeast {j | i < j ∧ j < stop ∧ openAt bytes (j + 1) = openAt bytes i}
        (i + 1 + inside.length) := by
      refine ⟨⟨by omega, by omega, (hreturn _ (by omega)).mpr hclose⟩, ?_⟩
      rintro j ⟨hij, hjs, hj⟩
      by_contra hlt
      obtain ⟨k, rfl⟩ : ∃ k, j = i + 1 + k := ⟨j - i - 1, by omega⟩
      have hdepth := hinside.openAt_nonneg (k + 1)
      rw [hreturn k (by omega), htext, openAt_take _ (by omega)] at hj
      omega
    intro j
    exact ⟨fun h => Option.some.inj h ▸ hleast, fun h => congrArg some (hleast.unique h)⟩

end Partner

/-- A position outside of groups with one of some operators that is no sign in the span. -/
def OuterOperator (bytes text : List Char) (start : Nat) (ops : List Char) (i : Nat) : Prop :=
  openAt text i = 0 ∧ ∃ c ∈ ops, text[i]? = some c ∧
    (isPlusMinus c = true → sign? bytes start (start + i) = some false)

section Pattern

variable {bytes text ops : List Char} {start stop i : Nat}

theorem slice?_eq_some_iff : slice? bytes start stop = some text ↔
    ∃ u v, bytes = u ++ text ++ v ∧ start = u.length ∧ stop = start + text.length := by
  constructor
  · intro h
    rw [slice?] at h
    split at h
    next hbounds =>
      obtain rfl := Option.some.inj h
      have hlength : ((bytes.take stop).drop start).length = stop - start := by
        rw [List.length_drop, List.length_take, Nat.min_eq_left hbounds.2]
      refine ⟨bytes.take start, bytes.drop stop, ?_, ?_, by omega⟩
      · have htake : bytes.take start = (bytes.take stop).take start := by
          rw [List.take_take, Nat.min_eq_left hbounds.1]
        rw [htake, List.take_append_drop, List.take_append_drop]
      · rw [List.length_take, Nat.min_eq_left (by omega)]
    next => cases h
  · rintro ⟨u, v, hb, hu, hv⟩
    exact slice?_eq_some hb hu hv

theorem slice?_sign? (h : slice? bytes start stop = some text) (hi : i ≤ text.length) :
    sign? bytes start (start + i) = some (isSignAfter (text.take i).reverse) := by
  obtain ⟨u, v, hb, hu, _⟩ := slice?_eq_some_iff.mp h
  refine sign?_eq (u := u) (v := text.drop i ++ v) ?_ hu ?_
  · rw [hb, List.append_assoc u, List.append_assoc u, ← List.append_assoc (text.take i),
      List.take_append_drop]
  · rw [List.length_take_of_le hi]

/-- What shows of some operators are their positions outside of groups, signs apart. -/
theorem shows_iff (hslice : slice? bytes start stop = some text) (h : Balanced text)
    (hops : ∀ c ∈ ops, c ≠ '(') :
    (∃ a, (mask text)[i]? = some a ∧ shows ops a = true) ↔
      OuterOperator bytes text start ops i := by
  have hnonneg := h.openAt_nonneg i
  constructor
  · rintro ⟨a, ha, hshows⟩
    obtain ⟨c, rfl, hc⟩ := (Option.any_eq_true _ _).mp hshows
    have hlt : i < text.length := by
      have := (List.getElem?_eq_some_iff.mp ha).1
      rwa [mask, maskFrom_length] at this
    obtain ⟨hor, hnone⟩ := h.mask_getElem? (List.getElem?_eq_getElem hlt)
    rw [ha] at hor hnone
    have hchar : text[i]? = some c := by
      rw [List.getElem?_eq_getElem hlt]
      rcases hor with hhidden | hshown
      · cases hhidden
      · rw [(Option.some.inj (Option.some.inj hshown)).symm]
    have hvisible := mt hnone.mpr (by simp)
    rw [not_or, h.inGroup_iff, not_or, not_lt] at hvisible
    obtain ⟨⟨_, hle⟩, hsign⟩ := hvisible
    have hzero : openAt text i = 0 := by omega
    refine ⟨hzero, c, by simpa using hc, hchar, fun hpm => ?_⟩
    rw [slice?_sign? hslice (Nat.le_of_lt hlt), Option.some.injEq]
    have hat : text[i] = c := Option.some.inj (hchar ▸ (List.getElem?_eq_getElem hlt).symm)
    by_contra htrue
    exact hsign ⟨hat ▸ hpm, hzero, by simpa using htrue⟩
  · rintro ⟨hzero, c, hc, hchar, hsign⟩
    have hlt := (List.getElem?_eq_some_iff.mp hchar).1
    obtain ⟨hor, hnone⟩ := h.mask_getElem? hchar
    refine ⟨some c, hor.resolve_left fun hhidden => ?_, by simpa [shows] using hc⟩
    rcases hnone.mp hhidden with hgroup | ⟨hpm, _, htrue⟩
    · rcases h.inGroup_iff.mp hgroup with hopen | hpos
      · rw [hchar] at hopen
        exact hops c hc (Option.some.inj hopen)
      · omega
    · have hfalse := hsign hpm
      rw [slice?_sign? hslice (Nat.le_of_lt hlt), htrue] at hfalse
      cases hfalse

end Pattern

end ByteScan

/-- A text and its mask are written with a sharp for each byte that is hidden. -/
theorem flatMap_codeUnits {write : Char × Option Char → List Char}
    (hnone : ∀ c, write (c, none) = List.replicate c.utf8Size '#')
    (hsome : ∀ c d, write (c, some d) = [d]) (u : List Char) (depth : Nat) (text : List Char) :
    codeUnits ((text.zip (maskFrom u.reverse depth text)).flatMap write) =
      (maskFrom (codeUnits u).reverse depth (codeUnits text)).map fun shown => shown.getD '#' := by
  induction text generalizing u depth with
  | nil => rfl
  | cons c rest ih =>
    obtain ⟨a, shown, hshown, htext, hbytes⟩ := maskFrom_codeUnits_cons u depth c rest
    have hsharps : ∀ n, codeUnits (List.replicate n '#') = List.replicate n '#' := fun n =>
      codeUnits_of_not_wide fun d hd => by rw [List.eq_of_mem_replicate hd]; decide
    have ha : a = none ∨ a = some c := by
      rw [maskFrom] at htext
      rw [← (List.cons.inj htext).1]
      split
      · exact Or.inl rfl
      · exact Or.inr rfl
    rw [htext, hbytes, List.zip_cons_cons, List.flatMap_cons, codeUnits_append, List.map_append, ih]
    congr 1
    rcases hshown with ⟨hc, rfl⟩ | ⟨_, rfl, rfl⟩
    · have hsize : c.utf8Size = 1 := by rw [← unitsOf_length, unitsOf_of_not_wide hc]; rfl
      rcases ha with rfl | rfl
      · rw [hnone, hsize]
        exact hsharps 1
      · rw [hsome]
        exact codeUnits_of_not_wide (List.forall_mem_singleton.mpr hc)
    · by_cases hdepth : 0 < depth
      · simp only [hdepth, if_true, hnone, hsharps, List.map_const', List.map_replicate,
          Option.getD_none, unitsOf_length]
      · simp [hdepth, hsome, codeUnits, Function.comp_def]

theorem maskedText_codeUnits (text : List Char) :
    codeUnits (maskedText text) = (mask (codeUnits text)).map fun shown => shown.getD '#' :=
  flatMap_codeUnits (fun _ => rfl) (fun _ _ => rfl) [] 0 text

namespace ByteScan

theorem closer?_of_partners {bytes text u v : List Char} {stop i j : Nat}
    (h : Partners text i j) (hb : bytes = u ++ text ++ v) (hstop : stop = u.length + text.length) :
    closer? bytes stop (u.length + i) = some (some (u.length + j)) := by
  cases h with
  | @mk w inside x hinside =>
    have htext : bytes = (u ++ w) ++ '(' :: (inside ++ ')' :: x) ++ v := by
      rw [hb]
      simp
    rw [closer?_eq htext List.length_append.symm, hinside.splitGroup_close]
    · show some (some (u.length + w.length + 1 + inside.length)) = _
      rw [Nat.add_assoc u.length, Nat.add_assoc u.length]
    · rw [hstop, List.length_append, List.length_cons]
      omega

/-- In a balanced span each `(` has a partner, and it is found whatever follows the span. -/
theorem closer?_of_balanced {bytes text : List Char} {span : Span} {i : Nat}
    (hslice : slice? bytes span.start span.stop = some text) (h : Balanced text)
    (hi : text[i]? = some '(') : ∃ j, j < text.length ∧
      IsLeast {j | span.start + i < j ∧ openAt bytes (j + 1) = openAt bytes (span.start + i)}
        (span.start + j) ∧
      ∀ stop, span.stop ≤ stop → stop ≤ bytes.length →
        closer? bytes stop (span.start + i) = some (some (span.start + j)) := by
  obtain ⟨u, v, hb, hu, hv⟩ := slice?_eq_some_iff.mp hslice
  have hlength := congrArg List.length hb
  rw [List.length_append, List.length_append] at hlength
  obtain ⟨j, hpartners⟩ : ∃ j, Partners text i j := by
    obtain ⟨j, hopen | hclose⟩ := h.partnered (Or.inl hi)
    · exact ⟨j, hopen⟩
    · rw [hclose.getElem?_close] at hi
      cases hi
  have hj := (List.getElem?_eq_some_iff.mp hpartners.getElem?_close).1
  have hlt := (List.getElem?_eq_some_iff.mp hi).1
  have hopen : bytes[span.start + i]? = some '(' := by
    rw [hb, hu, List.append_assoc, List.getElem?_append_right (Nat.le_add_right _ _),
      Nat.add_sub_cancel_left, List.getElem?_append_left hlt, hi]
  have hpartner : closer? bytes span.stop (span.start + i) = some (some (span.start + j)) := by
    rw [hu] at hv ⊢
    exact closer?_of_partners hpartners hb hv
  obtain ⟨found, hfound, hleast⟩ := closer?_least (show span.stop ≤ bytes.length by omega)
    (by omega) hopen
  obtain ⟨⟨hbehind, _, hreturn⟩, hlower⟩ :=
    (hleast (span.start + j)).mp (Option.some.inj (hfound.symm.trans hpartner))
  refine ⟨j, hj, ⟨⟨hbehind, hreturn⟩, fun k hk => ?_⟩, fun stop hle hstop => ?_⟩
  · by_contra hbefore
    exact hbefore (hlower ⟨hk.1, by omega, hk.2⟩)
  · obtain ⟨later, hlater, hiff⟩ := closer?_least hstop (by omega) hopen
    rw [hlater, (hiff (span.start + j)).mpr ⟨⟨hbehind, by omega, hreturn⟩, fun k hk => ?_⟩]
    by_contra hbefore
    exact hbefore (hlower ⟨hk.1, by omega, hk.2.2⟩)

/-- The pattern of a balanced span has each byte of the span or hides it. What it hides are the
groups, their parentheses included, and the signs outside of them, so that the last and the first
operator it shows are those of the span itself. The partner of a `(` is the first byte behind which
the depth is again what it was before the `(`. -/
theorem pattern_shows_operators {bytes text : List Char} {span : Span}
    (hslice : slice? bytes span.start span.stop = some text) (h : Balanced text) :
    ∃ pattern, pattern? bytes span = some pattern ∧ pattern = mask text ∧
      pattern.length = text.length ∧
      (∀ chars, text = codeUnits chars →
        codeUnits (maskedText chars) = pattern.map fun shown => shown.getD '#') ∧
      (∀ i c, text[i]? = some c →
        (pattern[i]? = some none ∨ pattern[i]? = some (some c)) ∧
        (pattern[i]? = some none ↔ InGroup text i ∨ isPlusMinus c = true ∧ openAt text i = 0 ∧
          sign? bytes span.start (span.start + i) = some true)) ∧
      (∀ ops, (∀ c ∈ ops, (Operator.ofSymbol? c).isSome = true) →
        (∀ i, lastIdx? (shows ops) pattern = some i ↔
          IsGreatest {i | OuterOperator bytes text span.start ops i} i) ∧
        (∀ i, pattern.findIdx? (shows ops) = some i ↔
          IsLeast {i | OuterOperator bytes text span.start ops i} i) ∧
        (lastIdx? (shows ops) pattern = none ↔
          ∀ i, ¬OuterOperator bytes text span.start ops i) ∧
        (pattern.findIdx? (shows ops) = none ↔
          ∀ i, ¬OuterOperator bytes text span.start ops i)) ∧
      ∀ i, text[i]? = some '(' → ∃ j, j < text.length ∧
        IsLeast {j | span.start + i < j ∧ openAt bytes (j + 1) = openAt bytes (span.start + i)}
          (span.start + j) ∧
        ∀ stop, span.stop ≤ stop → stop ≤ bytes.length →
          closer? bytes stop (span.start + i) = some (some (span.start + j)) := by
  obtain ⟨u, v, hb, hu, hv⟩ := slice?_eq_some_iff.mp hslice
  refine ⟨mask text, pattern?_eq h hb hu hv, rfl, maskFrom_length _ _ _, ?_, ?_, ?_,
    fun i hi => closer?_of_balanced hslice h hi⟩
  · rintro chars rfl
    exact maskedText_codeUnits chars
  · intro i c hc
    have hlt := (List.getElem?_eq_some_iff.mp hc).1
    rw [slice?_sign? hslice (Nat.le_of_lt hlt), Option.some.injEq]
    exact h.mask_getElem? hc
  · intro ops hops
    have hopen : ∀ c ∈ ops, c ≠ '(' := by
      rintro c hc rfl
      cases hops _ hc
    have hset : {i | ∃ a, (mask text)[i]? = some a ∧ shows ops a = true} =
        {i | OuterOperator bytes text span.start ops i} :=
      Set.ext fun i => shows_iff hslice h hopen
    have hnone : (∀ a ∈ mask text, shows ops a = false) ↔
        ∀ i, ¬OuterOperator bytes text span.start ops i := by
      simp only [← shows_iff hslice h hopen, List.mem_iff_getElem?, not_exists, not_and,
        Bool.not_eq_true]
      exact ⟨fun hall i a ha => hall a ⟨i, ha⟩, fun hall a ⟨i, ha⟩ => hall i a ha⟩
    refine ⟨fun i => ?_, fun i => ?_, ?_, ?_⟩
    · rw [lastIdx?_eq_some_iff, hset]
    · rw [findIdx?_eq_some_iff, hset]
    · rw [lastIdx?_eq_none, hnone]
    · rw [List.findIdx?_eq_none_iff, hnone]

/-- Two groups stand side by side, and of four signs one is an operator. -/
theorem adjacentGroups_pattern :
    slice? "g(2e-3-(a)(b)*-#)".toList 2 16 = some "2e-3-(a)(b)*-#".toList ∧
      Balanced "2e-3-(a)(b)*-#".toList ∧
      ∃ pattern, pattern? "g(2e-3-(a)(b)*-#)".toList ⟨2, 16⟩ = some pattern ∧
        pattern.map (fun shown => shown.getD '#') = "2e#3-######*##".toList ∧
        IsGreatest {i | OuterOperator "g(2e-3-(a)(b)*-#)".toList "2e-3-(a)(b)*-#".toList 2
          ['+', '-'] i} 4 ∧
        ∃ j, closer? "g(2e-3-(a)(b)*-#)".toList 17 (2 + 5) = some (some (2 + j)) := by
  have hslice : slice? "g(2e-3-(a)(b)*-#)".toList 2 16 = some "2e-3-(a)(b)*-#".toList := by decide
  have hbalance : Balanced "2e-3-(a)(b)*-#".toList :=
    (Fragment.requireBalance_eq_ok_iff (f := .ofString "2e-3-(a)(b)*-#")).mp
      (by with_unfolding_all rfl)
  obtain ⟨pattern, hpattern, rfl, _, _, _, hfind, hclose⟩ :=
    @pattern_shows_operators _ _ ⟨2, 16⟩ hslice hbalance
  have hops : ∀ c ∈ ['+', '-'], (Operator.ofSymbol? c).isSome = true :=
    List.forall_mem_cons.mpr ⟨rfl, List.forall_mem_singleton.mpr rfl⟩
  obtain ⟨hlast, _⟩ := hfind ['+', '-'] hops
  obtain ⟨j, _, _, hpartner⟩ := hclose 5 (by decide)
  exact ⟨hslice, hbalance, _, hpattern, by decide, (hlast 4).mp (by decide), j,
    hpartner 17 (by decide) (by decide)⟩

end ByteScan

end Formulary
