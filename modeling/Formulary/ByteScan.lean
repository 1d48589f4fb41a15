import Formulary.Formula

namespace Formulary

/-- A part of a text, from the offset of its first byte to the one behind its last byte. -/
structure Span where
  start : Nat
  stop : Nat
deriving DecidableEq, Repr

def Span.size (s : Span) : Nat := s.stop - s.start

def Fragment.span (f : Fragment) : Span := ⟨f.offset, f.stop⟩

/-- The bytes of a text in UTF-8, each as the character that has its number. -/
def bytesOf (source : String) : List Char := source.toByteArray.data.toList.map Char.ofUInt8

/-! Parsing by the offsets of bytes. The result is `none` wherever a byte is read or a text is cut
out of bounds, a text is cut within a character, a count would fall below zero, a parenthesis has
no partner where one is needed, or a part is no shorter than what it is a part of. -/

namespace ByteScan

section Bytes

variable (bytes : List Char)

/-- The bytes between two offsets. -/
def slice? (start stop : Nat) : Option (List Char) :=
  if start ≤ stop ∧ stop ≤ bytes.length then some ((bytes.take stop).drop start) else none

/-- The byte before an offset. -/
def before? (i : Nat) : Option Char := if i = 0 then none else bytes[i - 1]?

/-- The offset of the `)` at which as many groups are closed as were opened from offset `i` on, if
the bytes do not end before. -/
def closerFrom? (depth i : Nat) : List Char → Option (Option Nat)
  | [] => some none
  | c :: rest =>
    if c = '(' then closerFrom? (depth + 1) (i + 1) rest
    else if c = ')' then
      if depth = 0 then none
      else if depth = 1 then some (some i)
      else closerFrom? (depth - 1) (i + 1) rest
    else closerFrom? depth (i + 1) rest

/-- The partner of the `(` at an offset. -/
def closer? (stop opening : Nat) : Option (Option Nat) := do
  let text ← slice? bytes 0 stop
  closerFrom? 0 opening (text.drop opening)

/-- The first offset in a span whose byte does not satisfy `p`. -/
def skipRight? (p : Char → Bool) (start stop : Nat) : Option Nat :=
  if start < stop then do
    let c ← bytes[start]?
    if p c then skipRight? p (start + 1) stop else return start
  else return start
termination_by stop - start

/-- The offset from which on all bytes of a span satisfy `p`. -/
def skipLeft? (p : Char → Bool) (start stop : Nat) : Option Nat :=
  if start < stop then do
    let c ← before? bytes stop
    if p c then skipLeft? p start (stop - 1) else return stop
  else return stop
termination_by stop

def trim? (s : Span) : Option Span := do
  let start ← skipRight? bytes isBlank s.start s.stop
  let stop ← skipLeft? bytes isBlank start s.stop
  return ⟨start, stop⟩

/-- Removes blanks and parentheses around the whole span, as often as they occur. -/
def strip? (s : Span) : Option Span := do
  let t ← trim? bytes s
  if t.stop < t.start then none
  else if t.stop - t.start < 2 then return t
  else
    let first ← bytes[t.start]?
    if first ≠ '(' then return t
    else
      let close ← closer? bytes t.stop t.start
      if close ≠ some (t.stop - 1) then return t
      else
        let inner : Span := ⟨t.start + 1, t.stop - 1⟩
        if _h : inner.size < s.size then strip? inner else none
termination_by s.size

/-- Whether the sign at an offset belongs to the exponent of a number that begins at `start` or
later. -/
def exponentSign? (start i : Nat) : Option Bool := do
  if i < start + 2 then return false
  else
    let letter ← before? bytes i
    if letter ≠ 'e' ∧ letter ≠ 'E' then return false
    else
      let first ← skipLeft? bytes isMantissa start (i - 1)
      let mantissa ← slice? bytes first (i - 1)
      if first = start then return mantissa.any Char.isDigit
      else
        let c ← before? bytes first
        return mantissa.any Char.isDigit && !isWord c

/-- Whether `+` or `-` at an offset is a sign in the span from `start` on. -/
def sign? (start i : Nat) : Option Bool := do
  let text ← slice? bytes start i
  match text.reverse.find? fun c => !isBlank c with
  | none => return true
  | some c =>
    if "+-*/^(,".toList.contains c then return true
    else exponentSign? bytes start i

/-- Hides the bytes between two offsets in the pattern of the span from `start` on. -/
def hide? (start i j : Nat) (pattern : List (Option Char)) : Option (List (Option Char)) :=
  if start ≤ i ∧ i ≤ j ∧ j - start ≤ pattern.length then
    some (pattern.take (i - start) ++ List.replicate (j - i) none ++ pattern.drop (j - start))
  else none

/-- Hides groups and signs from an offset on. -/
def patternFrom? (s : Span) (i : Nat) (pattern : List (Option Char)) :
    Option (List (Option Char)) :=
  if _h : i < s.stop then do
    let c ← bytes[i]?
    if c = '(' then
      match ← closer? bytes s.stop i with
      | none => none
      | some close =>
        let pattern ← hide? s.start i (close + 1) pattern
        if _h : i ≤ close then patternFrom? s (close + 1) pattern else none
    else if isPlusMinus c then
      if ← sign? bytes s.start i then
        let pattern ← hide? s.start i (i + 1) pattern
        patternFrom? s (i + 1) pattern
      else patternFrom? s (i + 1) pattern
    else patternFrom? s (i + 1) pattern
  else return pattern
termination_by s.stop - i

/-- The bytes of a span that may be binary operators of its own. -/
def pattern? (s : Span) : Option (List (Option Char)) := do
  let text ← slice? bytes s.start s.stop
  patternFrom? bytes s s.start (text.map some)

/-- The pieces between commas outside of groups. The first piece begins at `first`, and what
stands before offset `i` has been looked at. -/
def piecesFrom? (stop depth first i : Nat) : Option (List Span) :=
  if i < stop then do
    let c ← bytes[i]?
    if c = '(' then piecesFrom? stop (depth + 1) first (i + 1)
    else if c = ')' then
      if depth = 0 then none else piecesFrom? stop (depth - 1) first (i + 1)
    else if c = ',' ∧ depth = 0 then
      let later ← piecesFrom? stop 0 (i + 1) (i + 1)
      return ⟨first, i⟩ :: later
    else piecesFrom? stop depth first (i + 1)
  else return [⟨first, stop⟩]
termination_by stop - i

/-- The spans of the arguments between the parentheses of a call. -/
def arguments? (s : Span) : Option (List Span) := do
  let t ← trim? bytes s
  if t.start = t.stop then return [] else piecesFrom? bytes s.stop 0 s.start s.start

/-- The leftmost parenthesis without a partner, by its offset. -/
def unmatchedFrom? (opened : List Nat) (i : Nat) : List Char → Option (Fault × Nat)
  | [] => opened.getLast?.map (.unmatchedOpen, ·)
  | c :: rest =>
    if c = '(' then unmatchedFrom? (i :: opened) (i + 1) rest
    else if c = ')' then
      match opened with
      | [] => some (.unmatchedClose, i)
      | _ :: outer => unmatchedFrom? outer (i + 1) rest
    else unmatchedFrom? opened (i + 1) rest

end Bytes

section Source

variable (source : String)

/-- The text of a span that cuts no character. -/
def text? (s : Span) : Option Fragment :=
  if s.start ≤ s.stop ∧ (String.Pos.Raw.mk s.start).IsValid source ∧
      (String.Pos.Raw.mk s.stop).IsValid source then
    some (.between source s.start s.stop)
  else none

/-- The name and the arguments of a span that ends with the partner of its first `(`. -/
def call? (s : Span) : Option (Option (List Char × Span)) := do
  let last ← before? (bytesOf source) s.stop
  if last ≠ ')' then return none
  else
    let text ← slice? (bytesOf source) s.start s.stop
    match text.findIdx? (· = '(') with
    | none => return none
    | some i =>
      let opening := s.start + i
      let close ← closer? (bytesOf source) s.stop opening
      if close ≠ some (s.stop - 1) then return none
      else
        let name ← text? source ⟨s.start, opening⟩
        return some (trimEnd isSpace name.text, ⟨opening + 1, s.stop - 1⟩)

/-- The shape of a span without binary operators of its own. -/
def operandShape? (s : Span) : Option Shape := do
  let f ← text? source s
  match Numeral.read? f.text with
  | some n => return if n.inRange then .number n.value else .fault .literalOutOfRange f
  | none =>
    let first ← (bytesOf source)[s.start]?
    if first = '-' then
      let operand ← text? source ⟨s.start + 1, s.stop⟩
      return .minus operand
    else if first = '+' then
      let operand ← text? source ⟨s.start + 1, s.stop⟩
      return .plus operand
    else
      match ← call? source s with
      | some (name, inside) =>
        if isName name then
          let spans ← arguments? (bytesOf source) inside
          let arguments ← spans.mapM (text? source)
          return .call (String.ofList name) f arguments
        else return .fault .invalidExtensionName f
      | none => return if isName f.text then .name f else .fault .invalidToken f

def shape? (s : Span) : Option Shape := do
  let t ← strip? (bytesOf source) s
  if t.start = t.stop then
    let place ← text? source t
    return .fault .emptyOperand place
  else
    let pattern ← pattern? (bytesOf source) t
    match topOperatorIdx? pattern with
    | none => operandShape? source t
    | some i =>
      let shown ← pattern[i]?
      match shown.bind Operator.ofSymbol? with
      | none => operandShape? source t
      | some op =>
        let left ← text? source ⟨t.start, t.start + i⟩
        let right ← text? source ⟨t.start + i + 1, t.stop⟩
        return .binary op left right

def outline? (s : Span) : Option Outline := do
  let part? (part : Fragment) : Option Outline :=
    if _h : part.span.size < s.size then outline? part.span else none
  match ← shape? source s with
  | .fault fault place => return .fault fault place
  | .number value => return .number value
  | .name place => return .name place
  | .plus operand => part? operand
  | .minus operand =>
    let outline ← part? operand
    return .minus outline
  | .binary op left right =>
    let first ← part? left
    let second ← part? right
    return .binary op first second
  | .call name place arguments =>
    let outlines ← arguments.mapM part?
    return .call name place outlines
termination_by s.size

def requireBalance? : Option (Except Error Unit) :=
  match unmatchedFrom? [] 0 (bytesOf source) with
  | none => return .ok ()
  | some (fault, i) => do
    let place ← text? source ⟨i, source.utf8ByteSize⟩
    return .error (.malformed fault place)

def parse? (registry : Registry) : Option (Except Error Formula) := do
  match ← requireBalance? source with
  | .error error => return .error error
  | .ok () =>
    let outline ← outline? source ⟨0, source.utf8ByteSize⟩
    return do
      let (root, arguments) ← (outline.resolve registry).run {}
      return { source, root, arguments, argumentCount := arguments.size, code := none, registry }

end Source

end ByteScan

end Formulary
