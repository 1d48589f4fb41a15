import Formulary.Proofs.CodeUnits

namespace Formulary

/-! What the scanner finds among the bytes of a text is what it finds among the characters. -/

section Units

variable {p : Char → Bool} {c : Char} {u v text rest : List Char} {depth : Nat}

theorem textSize_eq_zero : textSize text = 0 ↔ text = [] := by
  refine ⟨fun h => ?_, fun h => by rw [h]; rfl⟩
  by_contra hne
  have := textSize_pos hne
  omega

theorem codeUnits_cons_of_not_wide (h : ¬Wide c) : codeUnits (c :: rest) = c :: codeUnits rest := by
  rw [codeUnits_cons, unitsOf_of_not_wide h, List.singleton_append]

theorem takeWhile_codeUnits (hp : ∀ c, Wide c → p c = false) :
    (codeUnits text).takeWhile p = codeUnits (text.takeWhile p) := by
  have hnarrow : ∀ c ∈ text.takeWhile p, ¬Wide c := by
    intro c hc hwide
    have htrue : p c = true := List.mem_takeWhile_imp hc
    simp [hp c hwide] at htrue
  rw [codeUnits_of_not_wide hnarrow]
  exact unitsOf_widens.takeWhile hp

theorem trim_codeUnits (hp : ∀ c, Wide c → p c = false) :
    trim p (codeUnits text) = codeUnits (trim p text) := by
  have hleft : (codeUnits text).dropWhile p = codeUnits (text.dropWhile p) :=
    unitsOf_widens.dropWhile hp
  rw [trim, hleft, trimEnd, codeUnits_reverse, unitsOf_widens.reverse.dropWhile hp, trim, trimEnd,
    ← List.reverse_reverse (codeUnits (List.reverse _)), codeUnits_reverse, List.reverse_reverse]

/-- A position among the bytes is that of the first byte of a character. -/
theorem findIdx?_codeUnits (hp : ∀ c, Wide c → p c = false) :
    (codeUnits text).findIdx? p = (text.findIdx? p).map fun i => textSize (text.take i) := by
  induction text with
  | nil => rfl
  | cons c rest ih =>
    have hnone : Wide c → (unitsOf c).findIdx? p = none := fun hc =>
      List.findIdx?_eq_none_iff.mpr fun d hd => hp d (wide_of_mem_unitsOf hc hd)
    rw [codeUnits_cons, List.findIdx?_append, ih, unitsOf_length, List.findIdx?_cons]
    by_cases hc : Wide c
    · rw [hnone hc, hp c hc]
      simp [Option.map_map, Function.comp_def, textSize, Nat.add_comm]
    · have hsize : c.utf8Size = 1 := by rw [← unitsOf_length, unitsOf_of_not_wide hc]; rfl
      rw [unitsOf_of_not_wide hc, List.findIdx?_singleton]
      by_cases hpc : p c
      · simp [hpc, textSize]
      · simp [hpc, Option.map_map, Function.comp_def, textSize, Nat.add_comm]

theorem Balanced.of_wide (h : ∀ c ∈ text, Wide c) : Balanced text :=
  .of_forall fun c hc => ⟨(h c hc).ne (by decide), (h c hc).ne (by decide)⟩

theorem balanced_unitsOf (h : Wide c) : Balanced (unitsOf c) :=
  .of_wide fun _ => wide_of_mem_unitsOf h

theorem Balanced.codeUnits (h : Balanced text) : Balanced (codeUnits text) := by
  induction h with
  | nil => exact .nil
  | @char c rest ho hc _ ih =>
    rw [codeUnits_cons]
    by_cases hw : Wide c
    · exact (balanced_unitsOf hw).append ih
    · rw [unitsOf_of_not_wide hw]
      exact .char ho hc ih
  | @group inside rest _ _ ihi ih =>
    rw [codeUnits_cons_of_not_wide (by decide), codeUnits_append,
      codeUnits_cons_of_not_wide (by decide)]
    exact .group ihi ih

theorem splitGroup_codeUnits (depth : Nat) (text : List Char) :
    splitGroup depth (codeUnits text) =
      (splitGroup depth text).map fun group => (codeUnits group.1, codeUnits group.2) := by
  induction text generalizing depth with
  | nil => rfl
  | cons c rest ih =>
    by_cases hc : Wide c
    · have ho : c ≠ '(' := hc.ne (by decide)
      have hclose : c ≠ ')' := hc.ne (by decide)
      rw [codeUnits_cons, (balanced_unitsOf hc).splitGroup_append, ih, splitGroup,
        if_neg (by simp [hclose]), depthAfter_of_ne depth ho hclose]
      simp [Option.map_map, Function.comp_def, codeUnits_cons]
    · rw [codeUnits_cons_of_not_wide hc, splitGroup, splitGroup, ih]
      split
      · rfl
      · simp [Option.map_map, Function.comp_def, codeUnits_cons_of_not_wide hc]

theorem commaPieces_codeUnits (depth : Nat) (text : List Char) :
    commaPieces depth (codeUnits text) =
      (codeUnits (commaPieces depth text).1, (commaPieces depth text).2.map codeUnits) := by
  induction text generalizing depth with
  | nil => rfl
  | cons c rest ih =>
    by_cases hc : Wide c
    · have hcomma : some ',' ∉ maskFrom [] depth (unitsOf c) := fun hm =>
        absurd (wide_of_mem_unitsOf hc (mem_of_mem_maskFrom hm)) (by decide)
      have hne : c ≠ ',' := hc.ne (by decide)
      rw [codeUnits_cons, commaPieces_append hcomma, (balanced_unitsOf hc).depthBehind_eq, ih,
        commaPieces, depthAfter_of_ne depth (hc.ne (by decide)) (hc.ne (by decide))]
      simp [hne, codeUnits_cons]
    · simp only [codeUnits_cons_of_not_wide hc, commaPieces, ih]
      split
      · rfl
      · simp [codeUnits_cons_of_not_wide hc]

end Units

section Mask

variable {before text : List Char} {depth : Nat} {ops : List Char}

theorem maskFrom_of_wide {wide : List Char} (hw : ∀ c ∈ wide, Wide c) (before : List Char)
    (depth : Nat) :
    maskFrom before depth wide = wide.map fun c => if 0 < depth then none else some c := by
  induction wide generalizing before with
  | nil => rfl
  | cons c rest ih =>
    obtain ⟨hc, hrest⟩ := List.forall_mem_cons.mp hw
    have hopen : c ≠ '(' := hc.ne (by decide)
    have hclose : c ≠ ')' := hc.ne (by decide)
    have hsign : isPlusMinus c = false := by
      simp [isPlusMinus, hc.ne (d := '+') (by decide), hc.ne (d := '-') (by decide)]
    rw [maskFrom, depthAfter_of_ne depth hopen hclose, ih hrest, List.map_cons]
    simp [hopen, hsign]

/-- The mask shows the bytes of a character as it shows the character. -/
theorem maskFrom_codeUnits_cons (u : List Char) (depth : Nat) (c : Char) (rest : List Char) :
    ∃ a shown, (¬Wide c ∧ shown = [a] ∨ Wide c ∧ a = (if 0 < depth then none else some c) ∧
        shown = (unitsOf c).map fun d => if 0 < depth then none else some d) ∧
      maskFrom u.reverse depth (c :: rest) =
        a :: maskFrom (u ++ [c]).reverse (depthAfter depth c) rest ∧
      maskFrom (codeUnits u).reverse depth (codeUnits (c :: rest)) =
        shown ++ maskFrom (codeUnits (u ++ [c])).reverse (depthAfter depth c) (codeUnits rest) := by
  have hreverse : (codeUnits (u ++ [c])).reverse =
      (unitsOf c).reverse ++ (codeUnits u).reverse := by
    rw [codeUnits_append, List.reverse_append, codeUnits_cons]
    simp [codeUnits]
  have htext : maskFrom u.reverse depth (c :: rest) =
      maskFrom u.reverse depth [c] ++ maskFrom (u ++ [c]).reverse (depthAfter depth c) rest := by
    rw [List.reverse_append]
    rfl
  have hunits : depthBehind depth (unitsOf c) = depthAfter depth c := by
    by_cases hc : Wide c
    · rw [(balanced_unitsOf hc).depthBehind_eq,
        depthAfter_of_ne depth (hc.ne (by decide)) (hc.ne (by decide))]
    · rw [unitsOf_of_not_wide hc]
      rfl
  obtain ⟨a, ha⟩ := List.length_eq_one_iff.mp (maskFrom_length u.reverse depth [c])
  refine ⟨a, maskFrom (codeUnits u).reverse depth (unitsOf c), ?_, ?_, ?_⟩
  · by_cases hc : Wide c
    · rw [maskFrom_of_wide (List.forall_mem_singleton.mpr hc)] at ha
      exact Or.inr ⟨hc, (List.singleton_inj.mp ha).symm,
        maskFrom_of_wide (fun _ => wide_of_mem_unitsOf hc) _ _⟩
    · have hsign : isSignAfter (codeUnits u).reverse = isSignAfter u.reverse := by
        rw [codeUnits_reverse]
        exact unitsOf_widens.reverse.isSignAfter
      rw [unitsOf_of_not_wide hc, ← ha, maskFrom, hsign]
      exact Or.inl ⟨hc, rfl⟩
  · rw [htext, ha]
    rfl
  · rw [codeUnits_cons, maskFrom_append, hunits, hreverse]

/-- Of the bytes of a character the mask shows the operator that the character is, or none. -/
theorem shows_codeUnits_cons (hops : ∀ c ∈ ops, ¬Wide c) (u : List Char) (depth : Nat)
    (c : Char) (rest : List Char) :
    ∃ a shown, shown.length = c.utf8Size ∧
      (shown = [a] ∨ shows ops a = false ∧ ∀ b ∈ shown, shows ops b = false) ∧
      maskFrom u.reverse depth (c :: rest) =
        a :: maskFrom (u ++ [c]).reverse (depthAfter depth c) rest ∧
      maskFrom (codeUnits u).reverse depth (codeUnits (c :: rest)) =
        shown ++ maskFrom (codeUnits (u ++ [c])).reverse (depthAfter depth c) (codeUnits rest) := by
  have hidden : ∀ {d : Char}, Wide d → shows ops (if 0 < depth then none else some d) = false := by
    intro d hd
    split
    · rfl
    · exact hd.not_mem hops
  obtain ⟨a, shown, hshown, htext, hbytes⟩ := maskFrom_codeUnits_cons u depth c rest
  refine ⟨a, shown, ?_, ?_, htext, hbytes⟩
  · rcases hshown with ⟨hc, rfl⟩ | ⟨_, _, rfl⟩
    · rw [← unitsOf_length, unitsOf_of_not_wide hc]
      rfl
    · rw [List.length_map, unitsOf_length]
  · rcases hshown with ⟨_, rfl⟩ | ⟨hc, rfl, rfl⟩
    · exact Or.inl rfl
    · exact Or.inr ⟨hidden hc, List.forall_mem_map.mpr fun d hd =>
        hidden (wide_of_mem_unitsOf hc hd)⟩

theorem lastIdx?_append {α : Type} (p : α → Bool) (xs ys : List α) :
    lastIdx? p (xs ++ ys) = ((lastIdx? p ys).map (· + xs.length)).or (lastIdx? p xs) := by
  induction xs with
  | nil => simp [lastIdx?]
  | cons a rest ih =>
    rw [List.cons_append, lastIdx?, ih, lastIdx?]
    cases lastIdx? p ys <;> simp [Nat.add_assoc]

theorem lastIdx?_codeUnits (hops : ∀ c ∈ ops, ¬Wide c) (u : List Char) (depth : Nat)
    (text : List Char) :
    lastIdx? (shows ops) (maskFrom (codeUnits u).reverse depth (codeUnits text)) =
      (lastIdx? (shows ops) (maskFrom u.reverse depth text)).map
        fun i => textSize (text.take i) := by
  induction text generalizing u depth with
  | nil => rfl
  | cons c rest ih =>
    obtain ⟨a, shown, hsize, hshown, htext, hbytes⟩ := shows_codeUnits_cons hops u depth c rest
    have hlater : ∀ later, textSize (c :: later) = textSize later + c.utf8Size :=
      fun _ => Nat.add_comm _ _
    rw [htext, hbytes, lastIdx?_append, ih, hsize, lastIdx?, Option.map_or, Option.map_map,
      Option.map_map]
    simp only [Function.comp_def, List.take_succ_cons, hlater]
    congr 1
    rcases hshown with rfl | ⟨ha, hall⟩
    · simp only [lastIdx?, Option.map_none, Option.none_or]
      split <;> simp [textSize]
    · rw [lastIdx?_eq_none.mpr hall, ha]
      rfl

theorem findIdx?_maskFrom_codeUnits (hops : ∀ c ∈ ops, ¬Wide c) (u : List Char) (depth : Nat)
    (text : List Char) :
    (maskFrom (codeUnits u).reverse depth (codeUnits text)).findIdx? (shows ops) =
      ((maskFrom u.reverse depth text).findIdx? (shows ops)).map
        fun i => textSize (text.take i) := by
  induction text generalizing u depth with
  | nil => rfl
  | cons c rest ih =>
    obtain ⟨a, shown, hsize, hshown, htext, hbytes⟩ := shows_codeUnits_cons hops u depth c rest
    have hlater : ∀ later, textSize (c :: later) = textSize later + c.utf8Size :=
      fun _ => Nat.add_comm _ _
    rw [htext, hbytes, List.findIdx?_append, ih, hsize, List.findIdx?_cons, Option.map_map]
    rcases hshown with rfl | ⟨ha, hall⟩
    · by_cases ha : shows ops a = true
      · simp [ha, textSize]
      · simp [ha, Function.comp_def, hlater]
    · rw [List.findIdx?_eq_none_iff.mpr hall, ha]
      simp [Function.comp_def, hlater]

/-- The operator that binds last is the same one, at the offset of its only byte. -/
theorem topOperatorIdx?_codeUnits (text : List Char) :
    topOperatorIdx? (mask (codeUnits text)) =
      (topOperatorIdx? (mask text)).map fun i => textSize (text.take i) := by
  have last : ∀ {ops : List Char}, (∀ c ∈ ops, ¬Wide c) →
      lastIdx? (shows ops) (mask (codeUnits text)) =
        (lastIdx? (shows ops) (mask text)).map fun i => textSize (text.take i) :=
    fun hops => lastIdx?_codeUnits hops [] 0 text
  have first : (mask (codeUnits text)).findIdx? (shows ['^']) =
      ((mask text).findIdx? (shows ['^'])).map fun i => textSize (text.take i) :=
    findIdx?_maskFrom_codeUnits (by simp [Wide]) [] 0 text
  rw [topOperatorIdx?, topOperatorIdx?, Option.map_or, Option.map_or, last (by simp [Wide]),
    last (by simp [Wide]), first]

end Mask

end Formulary
