import Formulary.Proofs.CheckedScan

namespace Formulary

theorem utf8ByteSize_ofList (text : List Char) :
    (String.ofList text).utf8ByteSize = textSize text := by
  rw [← codeUnits_length, ← String.toList_ofList (l := text), ← bytesOf_eq, String.toList_ofList]
  simp [bytesOf, String.utf8ByteSize]

theorem takeSize_append (u v : List Char) : takeSize (textSize u) (u ++ v) = u := by
  induction u with
  | nil => cases v <;> simp [textSize, takeSize, Nat.not_le.mpr (Char.utf8Size_pos _)]
  | cons c rest ih =>
    rw [List.cons_append, textSize, takeSize, if_pos (Nat.le_add_right _ _),
      Nat.add_sub_cancel_left, ih]

theorem dropSize_append (u v : List Char) : dropSize (textSize u) (u ++ v) = v := by
  induction u with
  | nil => cases v <;> simp [textSize, dropSize]
  | cons c rest ih =>
    have hc := c.utf8Size_pos
    rw [List.cons_append, textSize, dropSize, if_neg (by omega), if_pos (Nat.le_add_right _ _),
      Nat.add_sub_cancel_left, ih]

@[simp] theorem Fragment.span_start (f : Fragment) : f.span.start = f.offset := rfl

@[simp] theorem Fragment.span_stop (f : Fragment) : f.span.stop = f.stop := rfl

theorem Fragment.span_size (f : Fragment) : f.span.size = textSize f.text :=
  Nat.add_sub_cancel_left _ _

/-- Behind a character of one byte, the offset is one higher. -/
theorem Fragment.offsetAt_succ {f : Fragment} {i : Nat} {c : Char} (h : f.text[i]? = some c)
    (hc : c.utf8Size = 1) : f.offsetAt (i + 1) = f.offset + textSize (f.text.take i) + 1 := by
  obtain ⟨hlt, hget⟩ := List.getElem?_eq_some_iff.mp h
  rw [offsetAt, List.take_succ_eq_append_getElem hlt, hget, textSize_append, ← Nat.add_assoc,
    textSize, textSize, hc]

theorem Fragment.after_span {f : Fragment} {i : Nat} {c : Char} (h : f.text[i]? = some c)
    (hc : c.utf8Size = 1) :
    (f.after i).span = ⟨f.offset + textSize (f.text.take i) + 1, f.stop⟩ := by
  have hstop : (f.after i).stop = f.stop := by
    rw [stop, stop, after, offsetAt, Nat.add_assoc, ← textSize_append, List.take_append_drop]
  rw [span, hstop, after, offsetAt_succ h hc]

namespace ByteScan

section Fragment

variable {source : String} {g : Fragment} {c : Char} {u rest : List Char}

/-- The bytes of a fragment among those of the source. -/
theorem within_bytes (hw : g.Within (.ofString source)) :
    ∃ u v, bytesOf source = codeUnits u ++ codeUnits g.text ++ codeUnits v ∧
      g.offset = (codeUnits u).length ∧ g.stop = g.offset + (codeUnits g.text).length := by
  obtain ⟨u, v, ht, ho⟩ := hw
  refine ⟨u, v, ?_, by rw [codeUnits_length, ho]; exact Nat.zero_add _, ?_⟩
  · rw [bytesOf_eq, ← codeUnits_append, ← codeUnits_append, ← ht]
    rfl
  · rw [codeUnits_length]
    rfl

theorem text?_eq (hw : g.Within (.ofString source)) : text? source g.span = some g := by
  obtain ⟨u, v, ht, ho⟩ := hw
  obtain ho : g.offset = textSize u := ho.trans (Nat.zero_add _)
  have ht : source.toList = u ++ (g.text ++ v) := by rw [← List.append_assoc, ← ht]; rfl
  have hsource : source = String.ofList u ++ String.ofList (g.text ++ v) := by
    rw [← String.ofList_append, ← ht, String.ofList_toList]
  have hsource' : source = String.ofList (u ++ g.text) ++ String.ofList v := by
    rw [← String.ofList_append, List.append_assoc, ← ht, String.ofList_toList]
  have hstart : (String.Pos.Raw.mk g.offset).IsValid source := by
    refine String.Pos.Raw.isValid_iff_exists_append.mpr ⟨_, _, hsource, ?_⟩
    rw [ho, ← utf8ByteSize_ofList]
    rfl
  have hstop : (String.Pos.Raw.mk g.stop).IsValid source := by
    refine String.Pos.Raw.isValid_iff_exists_append.mpr ⟨_, _, hsource', ?_⟩
    rw [Fragment.stop, ho, ← textSize_append, ← utf8ByteSize_ofList]
    rfl
  have hsize : g.stop - g.offset = textSize g.text := Nat.add_sub_cancel_left _ _
  rw [text?, Fragment.span, if_pos ⟨Nat.le_add_right _ _, hstart, hstop⟩, Fragment.between, hsize,
    ho, ht, dropSize_append, takeSize_append, ← ho]

theorem first_byte (hw : g.Within (.ofString source)) (ht : g.text = c :: rest) :
    ∃ d ∈ unitsOf c, (bytesOf source)[g.offset]? = some d := by
  obtain ⟨u, v, hb, ho, _⟩ := within_bytes hw
  obtain ⟨d, more, hd⟩ := List.exists_cons_of_ne_nil (unitsOf_ne_nil c)
  rw [ht, codeUnits_cons, hd] at hb
  exact ⟨d, by simp [hd], getElem?_eq_some (v := more ++ codeUnits rest ++ codeUnits v)
    (by rw [hb]; simp) ho⟩

theorem last_byte (hw : g.Within (.ofString source)) (ht : g.text = rest ++ [c]) :
    ∃ d ∈ unitsOf c, before? (bytesOf source) g.stop = some d := by
  obtain ⟨u, v, hb, ho, hstop⟩ := within_bytes hw
  obtain ⟨front, d, hd⟩ := (List.eq_nil_or_concat (unitsOf c)).resolve_left (unitsOf_ne_nil c)
  rw [List.concat_eq_append] at hd
  rw [ht, codeUnits_append, codeUnits_cons, hd] at hb hstop
  refine ⟨d, by simp [hd], before?_eq_some (u := codeUnits u ++ codeUnits rest ++ front)
    (v := codeUnits v) (by rw [hb]; simp [codeUnits]) ?_⟩
  rw [hstop, ho]
  simp [codeUnits]
  omega

theorem trim?_fragment (hw : g.Within (.ofString source)) :
    trim? (bytesOf source) g.span = some g.trim.span := by
  obtain ⟨u, v, hb, ho, hstop⟩ := within_bytes hw
  have htrim := trim?_eq hb ho hstop
  rw [takeWhile_codeUnits fun _ => Wide.isBlank_eq_false, trim_codeUnits fun _ =>
    Wide.isBlank_eq_false, codeUnits_length, codeUnits_length] at htrim
  exact htrim

/-- The partner of a `(` is the last byte of a fragment when the fragment ends with its group. -/
theorem closer?_last (hw : g.Within (.ofString source)) (ht : g.text = u ++ '(' :: rest) :
    ∃ close, closer? (bytesOf source) g.stop (g.offset + textSize u) = some close ∧
      (close = some (g.stop - 1) ↔ ∃ inside, splitGroup 0 rest = some (inside, [])) := by
  obtain ⟨x, y, hb, ho, hstop⟩ := within_bytes hw
  rw [ht, codeUnits_append, codeUnits_cons_of_not_wide (by decide)] at hb hstop
  rw [List.length_append, List.length_cons, codeUnits_length] at hstop
  refine ⟨_, closer?_eq (u := codeUnits x ++ codeUnits u) (t := codeUnits rest) (v := codeUnits y)
    (by rw [hb]; simp) (by rw [List.length_append, ho, codeUnits_length u]) (by omega), ?_⟩
  rw [splitGroup_codeUnits, Option.map_map]
  cases hs : splitGroup 0 rest with
  | none => simp
  | some group =>
    obtain ⟨inside, later⟩ := group
    have hrest := splitGroup_eq hs
    rw [hrest, codeUnits_append, codeUnits_cons_of_not_wide (by decide), List.length_append,
      List.length_cons, codeUnits_length later] at hstop
    simp only [Option.map_some, Function.comp_apply, Option.some.injEq, Prod.mk.injEq,
      exists_eq_left', ← textSize_eq_zero]
    omega

/-- A fragment that is one group is stripped of its parentheses. -/
theorem strip?_of_group {inside : List Char} (hw : g.Within (.ofString source))
    (ht : g.trim.text = '(' :: rest) (hs : splitGroup 0 rest = some (inside, [])) :
    strip? (bytesOf source) g.span =
      strip? (bytesOf source) (Fragment.span ⟨g.trim.offset + 1, inside⟩) := by
  have hwt := g.trim_within.trans hw
  obtain ⟨d, hd, hread⟩ := first_byte hwt ht
  obtain ⟨close, hclose, hlast⟩ := closer?_last (u := []) hwt ht
  obtain rfl := (eq_iff_of_mem_unitsOf hd (by decide)).mpr rfl
  obtain rfl := hlast.mpr ⟨inside, hs⟩
  have hpartner : closer? (bytesOf source) g.trim.stop g.trim.offset =
      some (some (g.trim.stop - 1)) := hclose
  have hsize : textSize g.trim.text = textSize inside + 2 := by
    rw [ht, splitGroup_eq hs, textSize, textSize_append]
    exact Nat.add_comm 1 _
  have hstop : g.trim.stop = g.trim.offset + (textSize inside + 2) := by rw [Fragment.stop, hsize]
  have hinner : (⟨g.trim.offset + 1, g.trim.stop - 1⟩ : Span) =
      Fragment.span ⟨g.trim.offset + 1, inside⟩ := by
    simp only [Fragment.span, Fragment.stop, Span.mk.injEq, true_and, hsize]
    omega
  have hless : (Fragment.span ⟨g.trim.offset + 1, inside⟩).size < g.span.size := by
    have hle := g.trim_within.textSize_le
    rw [Fragment.span_size, Fragment.span_size]
    simp only
    omega
  have htrim : trim? (bytesOf source) g.span = some ⟨g.trim.offset, g.trim.stop⟩ :=
    trim?_fragment hw
  rw [strip?, htrim]
  simp only [Option.bind_eq_bind, Option.bind_some]
  rw [if_neg (by omega), if_neg (by omega), hread, Option.bind_some, if_neg (not_not.mpr rfl),
    hpartner, Option.bind_some, if_neg (not_not.mpr rfl), hinner, dif_pos hless]

theorem strip?_of_not_group (hw : g.Within (.ofString source))
    (h : ∀ rest inside, g.trim.text = '(' :: rest → splitGroup 0 rest ≠ some (inside, [])) :
    strip? (bytesOf source) g.span = some g.trim.span := by
  have hwt := g.trim_within.trans hw
  have horder : ¬g.trim.stop < g.trim.offset := Nat.not_lt.mpr (Nat.le_add_right _ _)
  have hsize : g.trim.stop - g.trim.offset = textSize g.trim.text := Nat.add_sub_cancel_left _ _
  have htrim : trim? (bytesOf source) g.span = some ⟨g.trim.offset, g.trim.stop⟩ :=
    trim?_fragment hw
  rw [strip?, htrim]
  simp only [Option.bind_eq_bind, Option.bind_some]
  rw [if_neg horder, hsize]
  cases ht : g.trim.text with
  | nil => rfl
  | cons c rest =>
    obtain ⟨d, hd, hread⟩ := first_byte hwt ht
    split
    · rfl
    rw [hread, Option.bind_some]
    split
    · rfl
    next ho =>
      obtain rfl := (eq_iff_of_mem_unitsOf hd (by decide)).mp (not_not.mp ho)
      obtain ⟨close, hclose, hlast⟩ := closer?_last (u := []) hwt ht
      have hpartner : closer? (bytesOf source) g.trim.stop g.trim.offset = some close := hclose
      have hne : close ≠ some (g.trim.stop - 1) := by
        intro hsame
        obtain ⟨inside, hs⟩ := hlast.mp hsame
        exact h rest inside ht hs
      rw [hpartner, Option.bind_some, if_pos hne]
      rfl

/-- By induction on the length of the fragment: what is left to strip within a group is shorter. -/
theorem strip?_eq (hw : g.Within (.ofString source)) :
    strip? (bytesOf source) g.span = some g.strip.span := by
  induction g using Fragment.lengthInduction with
  | shorter g ih =>
    by_cases h : ∃ rest inside, g.trim.text = '(' :: rest ∧ splitGroup 0 rest = some (inside, [])
    · obtain ⟨rest, inside, ht, hs⟩ := h
      have htext : g.trim.text = '(' :: (inside ++ [')']) := by rw [ht, splitGroup_eq hs]
      have hinside : Fragment.Within ⟨g.trim.offset + 1, inside⟩ g.trim :=
        ⟨['('], [')'], by simp [htext], rfl⟩
      have hlen := g.trim_length_le
      rw [htext, List.length_cons, List.length_append] at hlen
      rw [strip?_of_group hw ht hs, ih _ (by simp only; omega)
        ((hinside.trans g.trim_within).trans hw), Fragment.strip_of_group ht hs]
    · have hnone : ∀ rest inside,
          g.trim.text = '(' :: rest → splitGroup 0 rest ≠ some (inside, []) :=
        fun rest inside ht hs => h ⟨rest, inside, ht, hs⟩
      rw [strip?_of_not_group hw hnone, Fragment.strip_of_not_group hnone]

/-- The first `(` of a fragment that ends with `)`, and what is found there. -/
theorem call?_of_first {i : Nat} (hw : g.Within (.ofString source))
    (hlast : before? (bytesOf source) g.stop = some ')')
    (hi : g.text.findIdx? (· = '(') = some i) :
    call? source g.span = some (g.call?.map fun call => (call.1, call.2.span)) := by
  obtain ⟨hlt, hopen, _⟩ := List.findIdx?_eq_some_iff_getElem.mp hi
  have hchar : g.text[i] = '(' := of_decide_eq_true hopen
  have hsplit : g.text = g.text.take i ++ '(' :: g.text.drop (i + 1) := by
    rw [← hchar]
    simp
  obtain ⟨u, v, hb, ho, hsize⟩ := within_bytes hw
  have htext : slice? (bytesOf source) g.offset g.stop = some (codeUnits g.text) :=
    slice?_eq_some hb ho hsize
  have hfirst : (codeUnits g.text).findIdx? (fun c => decide (c = '(')) =
      some (textSize (g.text.take i)) := by
    rw [findIdx?_codeUnits fun c hwide => by simpa using hwide.ne (by decide), hi]
    rfl
  obtain ⟨close, hclose, hends⟩ := closer?_last hw hsplit
  show call? source ⟨g.offset, g.stop⟩ = _
  rw [call?]
  simp only [Option.bind_eq_bind, Option.bind_some, hlast, htext, hfirst, hclose]
  rw [if_neg (not_not.mpr rfl)]
  split
  next hother =>
    rw [Fragment.call?_of_not_group hi fun inside hs => hother (hends.mpr ⟨inside, hs⟩)]
    rfl
  next hsame =>
    obtain ⟨inside, hs⟩ := hends.mp (not_not.mp hsame)
    have hcall := Fragment.call?_of_group hi hs
    have hname : text? source ⟨g.offset, g.offset + textSize (g.text.take i)⟩ =
        some (g.before i) := text?_eq ((g.before_beginsIn i).within.trans hw)
    have hoffset := Fragment.offsetAt_succ (List.getElem?_eq_some_iff.mpr ⟨hlt, hchar⟩) rfl
    have hinside := Fragment.call?_stop hcall
    rw [hname, hcall]
    simp only [Option.bind_some, Option.map_some, Fragment.span, ← hinside, Nat.add_sub_cancel,
      hoffset]
    rfl

theorem call?_eq (hw : g.Within (.ofString source)) (hne : g.text ≠ []) :
    call? source g.span = some (g.call?.map fun call => (call.1, call.2.span)) := by
  obtain ⟨front, c, hlast⟩ := (List.eq_nil_or_concat g.text).resolve_left hne
  rw [List.concat_eq_append] at hlast
  obtain ⟨d, hd, hread⟩ := last_byte hw hlast
  have hclose := eq_iff_of_mem_unitsOf hd (x := ')') (by decide)
  by_cases hc : c = ')'
  · obtain rfl := hclose.mpr hc
    cases hi : g.text.findIdx? (· = '(') with
    | some i => exact call?_of_first hw hread hi
    | none =>
      obtain ⟨u, v, hb, ho, hsize⟩ := within_bytes hw
      have htext : slice? (bytesOf source) g.offset g.stop = some (codeUnits g.text) :=
        slice?_eq_some hb ho hsize
      have hfirst : (codeUnits g.text).findIdx? (fun c => decide (c = '(')) = none := by
        rw [findIdx?_codeUnits fun c hwide => by simpa using hwide.ne (by decide), hi]
        rfl
      rw [call?]
      simp [hread, htext, hfirst, Fragment.call?, hi]
  · have hnone : g.call? = none := by
      cases hcall : g.call? with
      | none => rfl
      | some call =>
        obtain ⟨u, ht, _⟩ := Fragment.call?_eq_some hcall
        have htext : g.text = (u ++ '(' :: call.2.text) ++ [')'] := by simp [ht]
        rw [hlast] at htext
        exact absurd (List.append_inj' htext rfl).2 (by simpa using hc)
    rw [call?, hnone]
    simp [hread, hclose, hc]

theorem placeFrom_span (offset : Nat) (texts : List (List Char)) :
    (placeFrom offset texts).map Fragment.span = spansFrom offset (texts.map codeUnits) := by
  induction texts generalizing offset with
  | nil => rfl
  | cons text rest ih =>
    rw [placeFrom, List.map_cons, ih, List.map_cons, spansFrom, codeUnits_length]
    rfl

theorem arguments?_eq (hw : g.Within (.ofString source)) (h : Balanced g.text) :
    arguments? (bytesOf source) g.span = some (g.arguments.map Fragment.span) := by
  have hblank : g.trim.span.start = g.trim.span.stop ↔ g.text.all isBlank = true := by
    rw [← trim_eq_nil, ← textSize_eq_zero]
    exact Nat.left_eq_add
  rw [arguments?, trim?_fragment hw, Fragment.arguments_eq]
  simp only [Option.bind_eq_bind, Option.bind_some]
  split
  next hs => rw [if_pos (hblank.mp hs)]; rfl
  next hs =>
    obtain ⟨u, v, hb, ho, hstop⟩ := within_bytes hw
    have hpieces : piecesFrom? (bytesOf source) g.stop 0 g.offset g.offset = some _ :=
      piecesFrom?_eq h.codeUnits hb ho hstop
    rw [commaPieces_codeUnits] at hpieces
    rw [if_neg fun hall => hs (hblank.mpr hall), Fragment.pieces, placeFrom_span]
    exact hpieces

theorem mapM_text? {parts : List Fragment} (h : ∀ p ∈ parts, p.Within (.ofString source)) :
    (parts.map Fragment.span).mapM (text? source) = some parts := by
  induction parts with
  | nil => rfl
  | cons p rest ih =>
    obtain ⟨hp, hrest⟩ := List.forall_mem_cons.mp h
    rw [List.map_cons, List.mapM_cons, text?_eq hp, ih hrest]
    rfl

theorem operandShape?_eq (hw : g.Within (.ofString source)) (hne : g.text ≠ []) :
    operandShape? source g.span = some g.operandShape := by
  obtain ⟨c, rest, ht⟩ := List.exists_cons_of_ne_nil hne
  obtain ⟨d, hd, hread⟩ := first_byte hw ht
  have hfirst : (bytesOf source)[g.span.start]? = some d := hread
  have hminus := eq_iff_of_mem_unitsOf hd (x := '-') (by decide)
  have hplus := eq_iff_of_mem_unitsOf hd (x := '+') (by decide)
  have sign : ∀ {c : Char}, g.text.head? = some c → c.utf8Size = 1 →
      text? source ⟨g.span.start + 1, g.span.stop⟩ = some (g.after 0) := by
    intro c hc hsize
    rw [List.head?_eq_getElem?] at hc
    have hspan := Fragment.after_span hc hsize
    rw [← text?_eq ((g.after_within 0).trans hw), hspan]
    rfl
  have hhead : ∀ x : Char, g.text.head? = some x ↔ c = x := by simp [ht]
  rw [operandShape?, text?_eq hw, Fragment.operandShape]
  simp only [Option.bind_eq_bind, Option.bind_some]
  cases Numeral.read? g.text with
  | some n => rfl
  | none =>
    simp only [hfirst, Option.bind_some, hminus, hplus, hhead]
    split
    next hc => rw [sign ((hhead '-').mpr hc) rfl]; rfl
    next =>
      split
      next hc => rw [sign ((hhead '+').mpr hc) rfl]; rfl
      next =>
        rw [call?_eq hw hne]
        cases hcall : g.call? with
        | none => rfl
        | some call =>
          obtain ⟨name, inside⟩ := call
          have hinside := (Fragment.call?_beginsIn hcall).within.trans hw
          simp only [Option.map_some, Option.bind_some]
          split
          · rw [arguments?_eq hinside (Fragment.call?_balanced hcall), Option.bind_some,
              mapM_text? fun p hp => (inside.arguments_beginsIn p hp).within.trans hinside]
            rfl
          · rfl

/-- The operator that binds last is found by bytes where it is found by characters. -/
theorem topOperator?_codeUnits (text : List Char) :
    (topOperatorIdx? (mask (codeUnits text)) = none ∧ topOperator? text = none) ∨
      ∃ i op, topOperatorIdx? (mask (codeUnits text)) = some (textSize (text.take i)) ∧
        (mask (codeUnits text))[textSize (text.take i)]? = some (some op.symbol) ∧
        topOperator? text = some (i, op) ∧ text[i]? = some op.symbol := by
  have hindex := topOperatorIdx?_codeUnits text
  cases htop : topOperatorIdx? (mask text) with
  | none =>
    rw [htop] at hindex
    exact Or.inl ⟨hindex, by simp [topOperator?, htop]⟩
  | some i =>
    rw [htop] at hindex
    obtain ⟨op, hshown, _⟩ := topOperatorIdx?_splitsAt htop
    obtain ⟨o, hshown', _⟩ := topOperatorIdx?_splitsAt hindex
    obtain ⟨u, v, rfl, rfl, _⟩ := mask_split hshown
    obtain ⟨x, y, hsplit, hx, _⟩ := mask_split hshown'
    have hnarrow : ¬Wide op.symbol := by cases op <;> decide
    have hop : (u ++ op.symbol :: v)[u.length]? = some op.symbol := by simp
    have hsame : o.symbol = op.symbol := by
      rw [codeUnits_append, codeUnits_cons_of_not_wide hnarrow] at hsplit
      have hlen : (codeUnits u).length = x.length := by
        rw [codeUnits_length, hx]
        simp
      exact (List.cons.inj (List.append_inj hsplit hlen).2).1.symm
    rw [hsame] at hshown'
    exact Or.inr ⟨u.length, op, hindex, hshown', by
      simp [topOperator?, htop, Operator.ofSymbol?_symbol], hop⟩

theorem shape?_eq (hw : g.Within (.ofString source)) (h : Balanced g.text) :
    shape? source g.span = some g.shape := by
  have hwi := g.strip_within.trans hw
  have hbal := Fragment.strip_balanced h
  have hempty : g.strip.span.start = g.strip.span.stop ↔ g.strip.text = [] := by
    rw [← textSize_eq_zero]
    exact Nat.left_eq_add
  rw [shape?, strip?_eq hw, Fragment.shape]
  simp only [Option.bind_eq_bind, Option.bind_some]
  split
  next hs => rw [if_pos (hempty.mp hs), text?_eq hwi]; rfl
  next hs =>
    have hne : g.strip.text ≠ [] := fun hnil => hs (hempty.mpr hnil)
    obtain ⟨u, v, hb, ho, hstop⟩ := within_bytes hwi
    have hpattern : pattern? (bytesOf source) g.strip.span = some (mask (codeUnits g.strip.text)) :=
      pattern?_eq hbal.codeUnits hb ho hstop
    rw [if_neg hne, hpattern, Option.bind_some]
    rcases topOperator?_codeUnits g.strip.text with
      ⟨hindex, htop⟩ | ⟨i, op, hindex, hshown, htop, hop⟩
    · rw [hindex, htop]
      exact operandShape?_eq hwi hne
    · have hsize : op.symbol.utf8Size = 1 := by cases op <;> rfl
      have hleft := text?_eq ((g.strip.before_beginsIn i).within.trans hwi)
      have hright := text?_eq ((g.strip.after_within i).trans hwi)
      rw [Fragment.after_span hop hsize] at hright
      simp only [hindex, htop, hshown, Option.bind_some, Operator.ofSymbol?_symbol]
      have hleft' : text? source ⟨g.strip.span.start,
          g.strip.span.start + textSize (g.strip.text.take i)⟩ = some (g.strip.before i) := hleft
      have hright' : text? source ⟨g.strip.span.start + textSize (g.strip.text.take i) + 1,
          g.strip.span.stop⟩ = some (g.strip.after i) := hright
      rw [hleft', Option.bind_some, hright']
      rfl

end Fragment

end ByteScan

end Formulary
