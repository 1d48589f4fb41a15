import Formulary.Proofs.ByteParse

namespace Formulary

namespace ByteScan

/-- Whether the `+` or `-` at an offset is a sign in the span from `start` on. -/
def role? (bytes : List Char) (start i : Nat) : Option Bool := do
  let c ← bytes[i]?
  if isPlusMinus c then sign? bytes start i else none

/-- The partner of the `(` at an offset, or that it has none before `stop`. -/
def partner? (bytes : List Char) (stop i : Nat) : Option (Option Nat) := do
  let c ← bytes[i]?
  if c = '(' then closer? bytes stop i else none

/-- What a scan finds at the offsets of a span, from the first offset to the last. -/
def findings {α : Type} (scan : Nat → Option α) (start size : Nat) : List (Nat × α) :=
  (List.range' start size).filterMap fun i => (scan i).map fun found => (i, found)

section Findings

variable {α : Type} {scan : Nat → Option α} {bytes u v : List Char} {c : Char} {i n : Nat}

theorem findings_append (m : Nat) :
    findings scan i (m + n) = findings scan i m ++ findings scan (i + m) n := by
  unfold findings
  rw [← List.range'_append_1, List.filterMap_append]

theorem findings_one :
    findings scan i 1 = ((scan i).map fun found => (i, found)).toList := by
  unfold findings
  rw [List.range'_one]
  cases hfound : scan i <;> simp [hfound]

theorem findings_eq_nil (h : ∀ j, i ≤ j → j < i + n → scan j = none) :
    findings scan i n = [] := by
  unfold findings
  apply List.filterMap_eq_nil_iff.mpr
  intro j hj
  obtain ⟨hle, hlt⟩ := List.mem_range'_1.mp hj
  simp [h j hle hlt]

/-- A scan that finds nothing at the bytes beyond ASCII finds something only where a character
begins. -/
theorem findings_cons (hscan : ∀ j d, bytes[j]? = some d → Wide d → scan j = none)
    (hb : bytes = u ++ unitsOf c ++ v) (hi : i = u.length) :
    findings scan i (c.utf8Size + n) =
      (if Wide c then none else scan i).toList.map (fun found => (i, found)) ++
        findings scan (i + c.utf8Size) n := by
  have hunits := unitsOf_length c
  rw [findings_append]
  congr 1
  by_cases hc : Wide c
  · rw [if_pos hc]
    apply findings_eq_nil
    intro j hle hlt
    have hj : j - u.length < (unitsOf c).length := by omega
    have hread : bytes[j]? = some (unitsOf c)[j - u.length] := by
      rw [hb, List.append_assoc, List.getElem?_append_right (by omega),
        List.getElem?_append_left hj, List.getElem?_eq_getElem hj]
    exact hscan j _ hread (wide_of_mem_unitsOf hc (List.getElem_mem hj))
  · have hsize : c.utf8Size = 1 := by
      rw [← hunits, unitsOf_of_not_wide hc]
      rfl
    rw [if_neg hc, hsize, findings_one]
    cases scan i <;> rfl

end Findings

section Listing

variable {bytes before later text u rest : List Char} {c : Char} {start stop i : Nat}

theorem role?_of_wide (h : bytes[i]? = some c) (hc : Wide c) : role? bytes start i = none := by
  have hplus : c ≠ '+' := hc.ne (by decide)
  have hminus : c ≠ '-' := hc.ne (by decide)
  simp [role?, h, isPlusMinus, hplus, hminus]

theorem partner?_of_wide (h : bytes[i]? = some c) (hc : Wide c) : partner? bytes stop i = none := by
  have hopen : c ≠ '(' := hc.ne (by decide)
  simp [partner?, h, hopen]

/-- The bytes of a text around those of one of its characters. -/
theorem bytes_around (hb : bytes = before ++ codeUnits text ++ later) (ht : text = u ++ c :: rest) :
    bytes = (before ++ codeUnits u) ++ unitsOf c ++ (codeUnits rest ++ later) := by
  rw [hb, ht, codeUnits_append, codeUnits_cons]
  simp only [List.append_assoc]

theorem narrow_around (hb : bytes = before ++ codeUnits text ++ later) (ht : text = u ++ c :: rest)
    (hc : ¬Wide c) : bytes = (before ++ codeUnits u) ++ c :: (codeUnits rest ++ later) := by
  rw [bytes_around hb ht, unitsOf_of_not_wide hc, List.append_assoc _ [c], List.singleton_append]

theorem length_around (hstart : start = before.length) (u : List Char) :
    start + textSize u = (before ++ codeUnits u).length := by
  rw [List.length_append, codeUnits_length, hstart]

theorem offset_concat (start : Nat) (u : List Char) (c : Char) :
    start + textSize (u ++ [c]) = start + textSize u + c.utf8Size := by
  rw [textSize_append, ← Nat.add_assoc]
  rfl

/-- By induction on the text: a listing that goes on from character to character is that of a scan
of the bytes, if it lists at each character what the scan finds where the character begins. -/
theorem findings_text {α : Type} {scan : Nat → Option α}
    (list : List Char → List Char → List (Nat × α))
    (hscan : ∀ j d, bytes[j]? = some d → Wide d → scan j = none)
    (hb : bytes = before ++ codeUnits text ++ later) (hstart : start = before.length)
    (hnil : ∀ u, list u [] = [])
    (hcons : ∀ u c rest, text = u ++ c :: rest → list u (c :: rest) =
      (if Wide c then none else scan (start + textSize u)).toList.map
        (fun found => (start + textSize u, found)) ++ list (u ++ [c]) rest) :
    list [] text = findings scan start (textSize text) := by
  suffices hfrom : ∀ rest u, text = u ++ rest →
      list u rest = findings scan (start + textSize u) (textSize rest) from hfrom text [] rfl
  intro rest
  induction rest with
  | nil => exact fun u _ => hnil u
  | cons c rest ih =>
    intro u ht
    have hlater := ih (u ++ [c]) (by rw [ht, List.append_assoc, List.singleton_append])
    have hread := bytes_around hb ht
    rw [hcons u c rest ht, hlater, offset_concat, textSize,
      findings_cons hscan hread (length_around hstart u)]

/-- What stands left of a character says the same in bytes and in characters about a sign. -/
theorem signsFrom_eq (hb : bytes = before ++ codeUnits text ++ later)
    (hstart : start = before.length) :
    signsFrom [] start text = findings (role? bytes start) start (textSize text) := by
  refine findings_text (fun u rest => signsFrom u.reverse (start + textSize u) rest)
    (fun _ _ => role?_of_wide) hb hstart (fun _ => rfl) fun u c rest ht => ?_
  rw [signsFrom, offset_concat, List.reverse_concat]
  by_cases hc : Wide c
  · have hplus : c ≠ '+' := hc.ne (by decide)
    have hminus : c ≠ '-' := hc.ne (by decide)
    simp [hc, isPlusMinus, hplus, hminus]
  · have hnarrow := narrow_around hb ht hc
    have hbyte : bytes[start + textSize u]? = some c :=
      getElem?_eq_some hnarrow (length_around hstart u)
    have hreverse : isSignAfter (codeUnits u).reverse = isSignAfter u.reverse := by
      rw [codeUnits_reverse]
      exact unitsOf_widens.reverse.isSignAfter
    have hsign : sign? bytes start (start + textSize u) = some (isSignAfter u.reverse) := by
      rw [← hreverse, ← codeUnits_length]
      exact sign?_eq hnarrow hstart rfl
    by_cases hpm : isPlusMinus c = true
    · simp [hc, role?, hbyte, hpm, hsign]
    · simp [hc, role?, hbyte, hpm]

/-- The partner of a `(` is looked for in what stands right of it. -/
theorem groupsFrom_eq (hb : bytes = before ++ codeUnits text ++ later)
    (hstart : start = before.length) (hstop : stop = start + textSize text) :
    groupsFrom start text = findings (partner? bytes stop) start (textSize text) := by
  refine findings_text (fun u rest => groupsFrom (start + textSize u) rest)
    (fun _ _ => partner?_of_wide) hb hstart (fun _ => rfl) fun u c rest ht => ?_
  rw [groupsFrom, offset_concat]
  by_cases hc : Wide c
  · have hopen : c ≠ '(' := hc.ne (by decide)
    simp [hc, hopen]
  · have hnarrow := narrow_around hb ht hc
    have hlength := length_around hstart u
    have hbyte : bytes[start + textSize u]? = some c := getElem?_eq_some hnarrow hlength
    by_cases hopen : c = '('
    · subst hopen
      have hrest : stop = start + textSize u + 1 + (codeUnits rest).length := by
        have hsize : '('.utf8Size = 1 := rfl
        rw [hstop, ht, textSize_append, textSize, codeUnits_length]
        omega
      have hgroup : bytes = (before ++ codeUnits u) ++ '(' :: codeUnits rest ++ later := by
        rw [hnarrow, List.append_assoc _ ('(' :: _), List.cons_append]
      have hcloser : closer? bytes stop (start + textSize u) = some ((splitGroup 0 rest).map
          fun group => start + textSize u + 1 + textSize group.1) := by
        rw [closer?_eq hgroup hlength hrest, splitGroup_codeUnits, Option.map_map]
        simp only [Function.comp_def, codeUnits_length]
      simp [hc, partner?, hbyte, hcloser]
    · simp [hc, partner?, hbyte, hopen]

end Listing

end ByteScan

/-- The signs and the groups that are listed for a part of a text are those that the scan of the
bytes finds at its offsets: each `+` and `-` with its role in the part, and each `(` with its
partner there. -/
theorem Fragment.Within.listed {source : String} {f : Fragment} (h : f.Within (.ofString source)) :
    f.signs = ByteScan.findings (ByteScan.role? (bytesOf source) f.offset) f.offset
        (textSize f.text) ∧
      f.groups = ByteScan.findings (ByteScan.partner? (bytesOf source) f.stop) f.offset
        (textSize f.text) := by
  obtain ⟨u, v, hb, hstart, _⟩ := ByteScan.within_bytes h
  exact ⟨ByteScan.signsFrom_eq hb hstart, ByteScan.groupsFrom_eq hb hstart rfl⟩

end Formulary
