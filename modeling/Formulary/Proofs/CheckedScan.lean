import Formulary.Proofs.ScannedUnits

namespace Formulary.ByteScan

variable {bytes u s v t : List Char} {c : Char} {start stop i : Nat}

section Reads

theorem slice?_eq_some (hb : bytes = u ++ s ++ v) (hi : start = u.length)
    (hj : stop = start + s.length) : slice? bytes start stop = some s := by
  subst hb hi hj
  rw [slice?, if_pos (by simp), ← List.length_append, List.take_left, List.drop_left]

theorem getElem?_eq_some (hb : bytes = u ++ c :: v) (hi : i = u.length) : bytes[i]? = some c := by
  subst hb hi
  simp

theorem before?_eq_some (hb : bytes = u ++ c :: v) (hi : i = u.length + 1) :
    before? bytes i = some c := by
  rw [before?, if_neg (by omega)]
  exact getElem?_eq_some hb (by omega)

end Reads

section Groups

/-- With a group open around it, a text is read up to the `)` that closes this group, and the count
falls to zero there and not before. -/
theorem closerFrom?_eq (depth i : Nat) (text : List Char) :
    closerFrom? (depth + 1) i text =
      some ((splitGroup depth text).map fun group => i + group.1.length) := by
  induction text generalizing depth i with
  | nil => rfl
  | cons c rest ih =>
    have hnext : ∀ d : Nat, ((splitGroup d rest).map fun group => (c :: group.1, group.2)).map
        (fun group => i + group.1.length) =
          (splitGroup d rest).map fun group => i + 1 + group.1.length := by
      intro d
      rw [Option.map_map]
      congr 1
      funext group
      rw [Function.comp_apply, List.length_cons]
      omega
    by_cases ho : c = '('
    · subst ho
      rw [closerFrom?, if_pos rfl, ih, splitGroup, if_neg (by simp), depthAfter_open, hnext]
    · by_cases hc : c = ')'
      · subst hc
        rw [closerFrom?, if_neg (by decide), if_pos rfl]
        cases depth with
        | zero => rfl
        | succ inner =>
          rw [if_neg (by omega), if_neg (by omega), Nat.add_sub_cancel, ih, splitGroup,
            if_neg (by simp), depthAfter_close, Nat.add_sub_cancel, hnext]
      · rw [closerFrom?, if_neg ho, if_neg hc, ih, splitGroup, if_neg (by simp [hc]),
          depthAfter_of_ne depth ho hc, hnext]

theorem closer?_eq (hb : bytes = u ++ '(' :: t ++ v) (hi : i = u.length)
    (hj : stop = i + 1 + t.length) :
    closer? bytes stop i = some ((splitGroup 0 t).map fun group => i + 1 + group.1.length) := by
  have htext : slice? bytes 0 stop = some (u ++ '(' :: t) := by
    refine slice?_eq_some (u := []) (v := v) (by simpa using hb) rfl ?_
    rw [List.length_append, List.length_cons]
    omega
  rw [closer?, htext, hi]
  show closerFrom? 0 u.length ((u ++ '(' :: t).drop u.length) = _
  rw [List.drop_left, closerFrom?, if_pos rfl, closerFrom?_eq]

end Groups

section Trim

theorem skipRight?_eq {p : Char → Bool} (hb : bytes = u ++ s ++ v) (hi : start = u.length)
    (hj : stop = start + s.length) :
    skipRight? bytes p start stop = some (start + (s.takeWhile p).length) := by
  induction s generalizing u start with
  | nil => rw [skipRight?, if_neg (by simp [hj])]; rfl
  | cons c rest ih =>
    have hc : bytes[start]? = some c := getElem?_eq_some (v := rest ++ v) (by rw [hb]; simp) hi
    rw [List.length_cons] at hj
    rw [skipRight?, if_pos (by omega), hc]
    show (if p c then skipRight? bytes p (start + 1) stop else some start) = _
    split
    next hp =>
      rw [ih (u := u ++ [c]) (by rw [hb]; simp) (by simp [hi]) (by omega),
        List.takeWhile_cons_of_pos hp, List.length_cons]
      congr 1
      omega
    next hp => rw [List.takeWhile_cons_of_neg hp]; rfl

theorem skipLeft?_eq {p : Char → Bool} (hb : bytes = u ++ s ++ v) (hi : start = u.length)
    (hj : stop = start + s.length) :
    skipLeft? bytes p start stop = some (start + (trimEnd p s).length) := by
  induction s using List.reverseRecOn generalizing v stop with
  | nil => rw [skipLeft?, if_neg (by simp [hj])]; simp [hj, trimEnd]
  | append_singleton rest c ih =>
    have hc : before? bytes stop = some c :=
      before?_eq_some (u := u ++ rest) (v := v) (by rw [hb]; simp) (by simp [hj, hi]; omega)
    rw [List.length_append, List.length_singleton] at hj
    rw [skipLeft?, if_pos (by omega), hc]
    show (if p c then skipLeft? bytes p start (stop - 1) else some stop) = _
    split
    next hp =>
      rw [ih (v := c :: v) (by rw [hb]; simp) (by omega),
        trimEnd_append_of_all (List.forall_mem_singleton.mpr hp)]
    next hp =>
      rw [trimEnd_append_of_exists ⟨c, by simp, by simpa using hp⟩]
      simp [trimEnd, hp, hj]

theorem trim?_eq (hb : bytes = u ++ s ++ v) (hi : start = u.length) (hj : stop = start + s.length) :
    trim? bytes ⟨start, stop⟩ =
      some ⟨start + (s.takeWhile isBlank).length,
        start + (s.takeWhile isBlank).length + (trim isBlank s).length⟩ := by
  have hsplit : s.takeWhile isBlank ++ s.dropWhile isBlank = s := List.takeWhile_append_dropWhile
  have hlen := congrArg List.length hsplit
  rw [List.length_append] at hlen
  have hright : skipLeft? bytes isBlank (start + (s.takeWhile isBlank).length) stop =
      some (start + (s.takeWhile isBlank).length + (trim isBlank s).length) :=
    skipLeft?_eq (u := u ++ s.takeWhile isBlank) (v := v)
      (by rw [hb, List.append_assoc u (s.takeWhile isBlank), hsplit])
      (by rw [List.length_append, hi]) (by omega)
  rw [trim?, skipRight?_eq hb hi hj]
  show (skipLeft? bytes isBlank (start + (s.takeWhile isBlank).length) stop).bind _ = _
  rw [hright]
  rfl

end Trim

section Sign

/-- The mantissa `m` is all of the digits and points before the letter, and `w` is what stands
before it. -/
theorem exponentSign?_of_mantissa {w m : List Char} (hb : bytes = u ++ (w ++ m ++ [c]) ++ v)
    (hi : start = u.length) (hj : i = start + (w ++ m ++ [c]).length) (hlong : w ++ m ≠ [])
    (hexp : c = 'e' ∨ c = 'E') (hm : trimEnd isMantissa (w ++ m) = w) :
    exponentSign? bytes start i =
      some (m.any Char.isDigit && w.reverse.head?.all fun d => !isWord d) := by
  have hpos := List.length_pos_iff.mpr hlong
  rw [List.length_append, List.length_singleton] at hj
  have hletter : before? bytes i = some c :=
    before?_eq_some (u := u ++ (w ++ m)) (v := v) (by rw [hb]; simp)
      (by rw [List.length_append, hj, hi, Nat.add_assoc])
  have hfirst : skipLeft? bytes isMantissa start (i - 1) = some (start + w.length) := by
    rw [skipLeft?_eq (u := u) (s := w ++ m) (v := c :: v) (by rw [hb]; simp) hi (by omega), hm]
  have hslice : slice? bytes (start + w.length) (i - 1) = some m := by
    rw [List.length_append] at hj
    exact slice?_eq_some (u := u ++ w) (v := c :: v) (by rw [hb]; simp)
      (by rw [List.length_append, hi]) (by omega)
  rw [exponentSign?, if_neg (by omega), hletter]
  simp only [Option.bind_eq_bind, Option.bind_some, hfirst, hslice]
  rw [if_neg fun h => hexp.elim h.1 h.2]
  rcases List.eq_nil_or_concat w with rfl | ⟨front, d, hw⟩
  · simp
  · rw [List.concat_eq_append] at hw
    subst hw
    have hd : before? bytes (start + (front ++ [d]).length) = some d :=
      before?_eq_some (u := u ++ front) (v := m ++ c :: v) (by rw [hb]; simp)
        (by rw [hi, List.length_append, List.length_append, List.length_singleton, Nat.add_assoc])
    rw [if_neg (by simp), hd]
    simp

theorem exponentSign?_eq (hb : bytes = u ++ s ++ v) (hi : start = u.length)
    (hj : i = start + s.length) :
    exponentSign? bytes start i = some (isExponentSign s.reverse) := by
  rcases List.eq_nil_or_concat s with rfl | ⟨w, letter, hs⟩
  · rw [exponentSign?, if_pos (by simp [hj])]
    rfl
  rw [List.concat_eq_append] at hs
  subst hs
  rw [List.reverse_append, List.reverse_singleton, List.singleton_append, isExponentSign]
  by_cases hw : w = []
  · subst hw
    rw [exponentSign?, if_pos (by simp [hj])]
    simp
  by_cases hexp : letter = 'e' ∨ letter = 'E'
  · have hsplit : trimEnd isMantissa w ++ (w.reverse.takeWhile isMantissa).reverse = w := by
      rw [trimEnd, ← List.reverse_append, List.takeWhile_append_dropWhile, List.reverse_reverse]
    rw [exponentSign?_of_mantissa (w := trimEnd isMantissa w)
      (m := (w.reverse.takeWhile isMantissa).reverse) (by rw [hsplit, hb]) hi (by rw [hsplit, hj])
      (by rwa [hsplit]) hexp (by rw [hsplit]), List.any_reverse, trimEnd, List.reverse_reverse]
    rw [show (decide (letter = 'e') || decide (letter = 'E')) = true by simpa using hexp,
      Bool.true_and]
  · have hletter : before? bytes i = some letter :=
      before?_eq_some (u := u ++ w) (v := v) (by rw [hb]; simp)
        (by rw [hj, hi, List.length_append, List.length_append, List.length_singleton,
          Nat.add_assoc])
    have hpos := List.length_pos_iff.mpr hw
    rw [List.length_append, List.length_singleton] at hj
    rw [exponentSign?, if_neg (by omega), hletter]
    simp [not_or.mp hexp]

theorem sign?_eq (hb : bytes = u ++ s ++ v) (hi : start = u.length) (hj : i = start + s.length) :
    sign? bytes start i = some (isSignAfter s.reverse) := by
  rw [sign?, slice?_eq_some hb hi hj, isSignAfter]
  simp only [Option.bind_eq_bind, Option.bind_some]
  cases s.reverse.find? fun c => !isBlank c with
  | none => rfl
  | some c =>
    simp only
    split
    next hc => rw [hc, Bool.true_or]; rfl
    next hc => rw [exponentSign?_eq hb hi hj, Bool.eq_false_iff.mpr hc, Bool.false_or]

end Sign

section Pattern

variable {todo : List Char}

theorem hide?_eq {P Q R : List (Option Char)} {j : Nat} (hi : i = start + P.length)
    (hj : j = i + Q.length) :
    hide? start i j (P ++ Q ++ R) = some (P ++ List.replicate Q.length none ++ R) := by
  have hstart : i - start = P.length := by omega
  have hsize : j - i = Q.length := by omega
  have hstop : j - start = (P ++ Q).length := by
    rw [List.length_append]
    omega
  rw [hide?, hstart, hsize, hstop, if_pos ⟨by omega, by omega, by simp⟩, List.append_assoc P,
    List.take_left, ← List.append_assoc P, List.drop_left]

section Step

variable {P R : List (Option Char)} (hlt : i < stop)

include hlt

theorem patternFrom?_char (hread : bytes[i]? = some c) (ho : c ≠ '(') {sign : Bool}
    (hsign : sign? bytes start i = some sign) (hi : i = start + P.length) :
    patternFrom? bytes ⟨start, stop⟩ i (P ++ [some c] ++ R) =
      patternFrom? bytes ⟨start, stop⟩ (i + 1)
        (P ++ [if isPlusMinus c ∧ sign then none else some c] ++ R) := by
  have hhide : hide? start i (i + 1) (P ++ [some c] ++ R) = some (P ++ [none] ++ R) :=
    hide?_eq hi rfl
  rw [patternFrom?, dif_pos hlt, hread]
  simp only [Option.bind_eq_bind, Option.bind_some, ho, if_false, hsign, hhide]
  by_cases hpm : isPlusMinus c = true
  · cases sign <;> simp [hpm]
  · simp [hpm]

theorem patternFrom?_group (hread : bytes[i]? = some '(') {Q : List (Option Char)} {close : Nat}
    (hclose : closer? bytes stop i = some (some close)) (hi : i = start + P.length)
    (hQ : close + 1 = i + Q.length) (hle : i ≤ close) :
    patternFrom? bytes ⟨start, stop⟩ i (P ++ Q ++ R) =
      patternFrom? bytes ⟨start, stop⟩ (close + 1) (P ++ List.replicate Q.length none ++ R) := by
  rw [patternFrom?, dif_pos hlt, hread]
  simp only [Option.bind_eq_bind, Option.bind_some, if_true, hclose, hide?_eq hi hQ]
  rw [dif_pos hle]

end Step

/-- By induction on the text that is still to be looked at: outside of groups a `(` opens a group
with a partner, so none is ever missing. -/
theorem patternFrom?_eq (h : Balanced todo) {w : List Char} {P : List (Option Char)}
    (hb : bytes = u ++ (w ++ todo) ++ v) (hs : start = u.length)
    (hj : stop = start + (w ++ todo).length) (hi : i = start + w.length)
    (hP : P.length = w.length) :
    patternFrom? bytes ⟨start, stop⟩ i (P ++ todo.map some) =
      some (P ++ maskFrom w.reverse 0 todo) := by
  induction h generalizing w P i with
  | nil =>
    rw [patternFrom?, dif_neg (by simp [hj, hi])]
    rfl
  | @char c text ho hc _ ih =>
    have hlt : i < stop := by
      rw [hi, hj, List.length_append, List.length_cons]
      omega
    have hread : bytes[i]? = some c :=
      getElem?_eq_some (u := u ++ w) (v := text ++ v) (by rw [hb]; simp) (by simp [hi, hs])
    have hsign : sign? bytes start i = some (isSignAfter w.reverse) :=
      sign?_eq (u := u) (v := c :: text ++ v) (by rw [hb]; simp) hs hi
    have hnext := fun a : Option Char => ih (w := w ++ [c]) (P := P ++ [a]) (i := i + 1)
      (by rw [hb]; simp) (by rw [hj]; simp) (by simp [hi]; omega) (by simp [hP])
    rw [List.map_cons, List.append_cons, patternFrom?_char hlt hread ho hsign (by omega), hnext,
      maskFrom, depthAfter_of_ne 0 ho hc]
    simp [ho]
  | @group inside text hinside _ _ ih =>
    have hlt : i < stop := by
      rw [hi, hj, List.length_append, List.length_cons]
      omega
    have hread : bytes[i]? = some '(' :=
      getElem?_eq_some (u := u ++ w) (v := inside ++ ')' :: text ++ v) (by rw [hb]; simp)
        (by simp [hi, hs])
    have hclose : closer? bytes stop i = some (some (i + 1 + inside.length)) := by
      rw [closer?_eq (u := u ++ w) (v := v) (t := inside ++ ')' :: text) (by rw [hb]; simp)
        (by simp [hi, hs]) (by simp [hj, hi]; omega), hinside.splitGroup_close]
      rfl
    have hnext := ih (w := w ++ '(' :: (inside ++ [')']))
      (P := P ++ List.replicate (inside.length + 2) none) (i := i + 1 + inside.length + 1)
      (by rw [hb]; simp) (by rw [hj]; simp) (by simp [hi]; omega) (by simp [hP])
    have hsplit : ('(' :: (inside ++ ')' :: text)).map some =
        ('(' :: (inside ++ [')'])).map some ++ text.map some := by simp
    have hsize : (('(' :: (inside ++ [')'])).map some).length = inside.length + 2 := by simp
    rw [hsplit, ← List.append_assoc, patternFrom?_group hlt hread hclose (by omega)
      (by rw [hsize]; omega) (by omega), hsize, hnext, hinside.maskFrom_group]
    simp

theorem pattern?_eq (h : Balanced s) (hb : bytes = u ++ s ++ v) (hi : start = u.length)
    (hj : stop = start + s.length) : pattern? bytes ⟨start, stop⟩ = some (mask s) := by
  rw [pattern?]
  show (slice? bytes start stop).bind _ = _
  rw [slice?_eq_some hb hi hj, Option.bind_some]
  exact patternFrom?_eq (w := []) (P := []) h hb hi hj rfl rfl

end Pattern

section Pieces

/-- Places texts one after the other, with one byte between neighbours. -/
def spansFrom (start : Nat) : List (List Char) → List Span
  | [] => []
  | text :: rest => ⟨start, start + text.length⟩ :: spansFrom (start + text.length + 1) rest

section Step

variable {d first : Nat} (hlt : i < stop)

include hlt

theorem piecesFrom?_open (hread : bytes[i]? = some '(') :
    piecesFrom? bytes stop d first i = piecesFrom? bytes stop (d + 1) first (i + 1) := by
  rw [piecesFrom?, if_pos hlt, hread]
  rfl

theorem piecesFrom?_close (hread : bytes[i]? = some ')') :
    piecesFrom? bytes stop (d + 1) first i = piecesFrom? bytes stop d first (i + 1) := by
  rw [piecesFrom?, if_pos hlt, hread]
  rfl

theorem piecesFrom?_char (hread : bytes[i]? = some c) (ho : c ≠ '(') (hc : c ≠ ')')
    (hcomma : ¬(c = ',' ∧ d = 0)) :
    piecesFrom? bytes stop d first i = piecesFrom? bytes stop d first (i + 1) := by
  rw [piecesFrom?, if_pos hlt, hread]
  simp only [Option.bind_eq_bind, Option.bind_some, ho, hc, hcomma, if_false]

theorem piecesFrom?_comma (hread : bytes[i]? = some ',') :
    piecesFrom? bytes stop 0 first i =
      (piecesFrom? bytes stop 0 (i + 1) (i + 1)).map fun later => ⟨first, i⟩ :: later := by
  rw [piecesFrom?, if_pos hlt, hread]
  cases piecesFrom? bytes stop 0 (i + 1) (i + 1) <;> rfl

end Step

variable {first : Nat}

/-- Within a group nothing is cut, and the count of open groups comes back to what it was. -/
theorem piecesFrom?_skip (h : Balanced s) {d : Nat} (hb : bytes = u ++ s ++ v)
    (hi : i = u.length) (hj : i + s.length ≤ stop) :
    piecesFrom? bytes stop (d + 1) first i =
      piecesFrom? bytes stop (d + 1) first (i + s.length) := by
  induction h generalizing u v i d with
  | nil => rfl
  | @char c text ho hc _ ih =>
    have hread : bytes[i]? = some c := getElem?_eq_some (v := text ++ v) (by rw [hb]; simp) hi
    rw [List.length_cons] at hj ⊢
    rw [piecesFrom?_char (by omega) hread ho hc (by simp),
      ih (u := u ++ [c]) (v := v) (by rw [hb]; simp) (by simp [hi]) (by omega)]
    congr 1
    omega
  | @group inside text _ _ ihi ih =>
    have hread : bytes[i]? = some '(' :=
      getElem?_eq_some (v := inside ++ ')' :: text ++ v) (by rw [hb]; simp) hi
    have hclose : bytes[i + 1 + inside.length]? = some ')' :=
      getElem?_eq_some (u := u ++ '(' :: inside) (v := text ++ v) (by rw [hb]; simp)
        (by simp [hi]; omega)
    rw [List.length_cons, List.length_append, List.length_cons] at hj ⊢
    rw [piecesFrom?_open (by omega) hread,
      ihi (u := u ++ ['(']) (v := ')' :: text ++ v) (by rw [hb]; simp) (by simp [hi]) (by omega),
      piecesFrom?_close (by omega) hclose,
      ih (u := u ++ '(' :: (inside ++ [')'])) (v := v) (by rw [hb]; simp) (by simp [hi]; omega)
        (by omega)]
    congr 1
    omega

theorem commaPieces_group {inside : List Char} (h : Balanced inside) (text : List Char) :
    commaPieces 0 ('(' :: (inside ++ ')' :: text)) =
      ('(' :: (inside ++ ')' :: (commaPieces 0 text).1), (commaPieces 0 text).2) := by
  have hhidden : some ',' ∉ maskFrom [] 0 ('(' :: (inside ++ [')'])) := by
    rw [h.maskFrom_group]
    simp [maskFrom]
  have hdepth : depthBehind 0 ('(' :: (inside ++ [')'])) = 0 :=
    (Balanced.group h .nil).depthBehind_eq 0
  have happend := commaPieces_append (v := text) hhidden
  rw [hdepth] at happend
  simpa using happend

/-- By induction on the text that is still to be looked at. The count of open groups is zero outside
of groups, so each comma there is one to cut at, and no `)` is met. -/
theorem piecesFrom?_eq (h : Balanced s) (hb : bytes = u ++ s ++ v) (hi : i = u.length)
    (hj : stop = i + s.length) :
    piecesFrom? bytes stop 0 first i =
      some (⟨first, i + (commaPieces 0 s).1.length⟩ ::
        spansFrom (i + (commaPieces 0 s).1.length + 1) (commaPieces 0 s).2) := by
  induction h generalizing u v i first with
  | nil =>
    rw [piecesFrom?, if_neg (by simp [hj])]
    simp [commaPieces, spansFrom, hj]
  | @char c text ho hc _ ih =>
    have hread : bytes[i]? = some c := getElem?_eq_some (v := text ++ v) (by rw [hb]; simp) hi
    rw [List.length_cons] at hj
    have hnext : ∀ first : Nat, piecesFrom? bytes stop 0 first (i + 1) =
        some (⟨first, i + 1 + (commaPieces 0 text).1.length⟩ ::
          spansFrom (i + 1 + (commaPieces 0 text).1.length + 1) (commaPieces 0 text).2) :=
      fun _ => ih (u := u ++ [c]) (v := v) (by rw [hb]; simp) (by simp [hi]) (by omega)
    rw [commaPieces, depthAfter_of_ne 0 ho hc]
    by_cases hcomma : c = ','
    · subst hcomma
      rw [piecesFrom?_comma (by omega) hread, hnext]
      simp [spansFrom]
    · rw [piecesFrom?_char (by omega) hread ho hc (by simp [hcomma]), hnext]
      simp [hcomma, Nat.add_assoc, Nat.add_comm 1]
  | @group inside text hinside _ _ ih =>
    have hread : bytes[i]? = some '(' :=
      getElem?_eq_some (v := inside ++ ')' :: text ++ v) (by rw [hb]; simp) hi
    have hclose : bytes[i + 1 + inside.length]? = some ')' :=
      getElem?_eq_some (u := u ++ '(' :: inside) (v := text ++ v) (by rw [hb]; simp)
        (by simp [hi]; omega)
    rw [List.length_cons, List.length_append, List.length_cons] at hj
    rw [piecesFrom?_open (by omega) hread,
      piecesFrom?_skip hinside (u := u ++ ['(']) (v := ')' :: text ++ v) (by rw [hb]; simp)
        (by simp [hi]) (by omega),
      piecesFrom?_close (by omega) hclose,
      ih (u := u ++ '(' :: (inside ++ [')'])) (v := v) (by rw [hb]; simp) (by simp [hi]; omega)
        (by omega), commaPieces_group hinside]
    have hsize : i + 1 + inside.length + 1 + (commaPieces 0 text).1.length =
        i + ('(' :: (inside ++ ')' :: (commaPieces 0 text).1)).length := by
      rw [List.length_cons, List.length_append, List.length_cons]
      omega
    rw [hsize]

end Pieces

end Formulary.ByteScan
