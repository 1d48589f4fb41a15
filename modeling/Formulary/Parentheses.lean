import Formulary.Fault

namespace Formulary

/-- How many groups are open after a character, when `depth` are open before it. -/
def depthAfter (depth : Nat) (c : Char) : Nat :=
  if c = '(' then depth + 1 else if c = ')' then depth - 1 else depth

/-- Splits a text at the `)` that closes `depth` inner groups and the one around it. -/
def splitGroup (depth : Nat) : List Char → Option (List Char × List Char)
  | [] => none
  | c :: rest =>
    if c = ')' ∧ depth = 0 then some ([], rest)
    else (splitGroup (depthAfter depth c) rest).map fun group => (c :: group.1, group.2)

theorem splitGroup_eq {depth : Nat} {text inside rest : List Char}
    (h : splitGroup depth text = some (inside, rest)) : text = inside ++ ')' :: rest := by
  induction text generalizing depth inside with
  | nil => simp [splitGroup] at h
  | cons c tail ih =>
    rw [splitGroup] at h
    split at h
    next hc =>
      obtain ⟨rfl, rfl⟩ := Prod.mk.inj (Option.some.inj h)
      simp [hc.1]
    next =>
      obtain ⟨group, hs, he⟩ := Option.map_eq_some_iff.mp h
      obtain ⟨rfl, rfl⟩ := Prod.mk.inj he
      simp [ih hs]

/-- The leftmost parenthesis without a partner, with the text from there on. No `(` before a `)`
without partner is unclosed, and of unclosed ones the first that was opened is the leftmost. -/
def unmatched? (opened : List Fragment) (offset : Nat) : List Char → Option (Fault × Fragment)
  | [] => opened.getLast?.map (.unmatchedOpen, ·)
  | c :: rest =>
    if c = '(' then unmatched? (⟨offset, c :: rest⟩ :: opened) (offset + c.utf8Size) rest
    else if c = ')' then
      match opened with
      | [] => some (.unmatchedClose, ⟨offset, c :: rest⟩)
      | _ :: outer => unmatched? outer (offset + c.utf8Size) rest
    else unmatched? opened (offset + c.utf8Size) rest

def Fragment.requireBalance (f : Fragment) : Except Error Unit :=
  match unmatched? [] f.offset f.text with
  | none => .ok ()
  | some (fault, place) => .error (.malformed fault place)

/-- Removes blanks and parentheses around the whole fragment, as often as they occur. -/
def Fragment.strip (f : Fragment) : Fragment :=
  let inner := f.trim
  match _ht : inner.text with
  | '(' :: rest =>
    match _hg : splitGroup 0 rest with
    | some (inside, []) => Fragment.strip ⟨inner.offset + 1, inside⟩
    | _ => inner
  | _ => inner
termination_by f.text.length
decreasing_by
  have hl := f.trim_length_le
  have he := splitGroup_eq _hg
  have hc := congrArg List.length _ht
  simp [he] at hc
  simp only [inner] at hc
  simp; omega

/-- The offset of each `(` with that of its partner, if it has one. -/
def groupsFrom (offset : Nat) : List Char → List (Nat × Option Nat)
  | [] => []
  | c :: rest =>
    let later := groupsFrom (offset + c.utf8Size) rest
    if c = '(' then
      (offset, (splitGroup 0 rest).map fun group => offset + 1 + textSize group.1) :: later
    else later

def Fragment.groups (f : Fragment) : List (Nat × Option Nat) :=
  groupsFrom f.offset f.text

end Formulary
