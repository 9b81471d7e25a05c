/-!
# Bytes and characters

Offsets into a text count the bytes of its UTF-8 form. Bytes that are no UTF-8 are read by
replacing each maximal prefix of a character that is cut short, and each byte that starts no
character, by U+FFFD.
-/

namespace Precis.Text

/-! ## Offsets -/

/-- Number of bytes of a text. -/
def byteLength : List Char → Nat
  | [] => 0
  | c :: cs => c.utf8Size + byteLength cs

/-- What follows the first `n` bytes, if a character ends there. -/
def dropBytes? : Nat → List Char → Option (List Char)
  | 0, cs => some cs
  | _ + 1, [] => none
  | n + 1, c :: cs => if c.utf8Size ≤ n + 1 then dropBytes? (n + 1 - c.utf8Size) cs else none

/-- The first `n` bytes, if a character ends there. -/
def takeBytes? : Nat → List Char → Option (List Char)
  | 0, _ => some []
  | _ + 1, [] => none
  | n + 1, c :: cs =>
    if c.utf8Size ≤ n + 1 then (takeBytes? (n + 1 - c.utf8Size) cs).map (c :: ·) else none

/-- The bytes from `start` up to `stop`, if that is a range of whole characters of the text. -/
def slice? (start stop : Nat) (cs : List Char) : Option (List Char) :=
  if start ≤ stop then (dropBytes? start cs).bind (takeBytes? (stop - start)) else none

/-- Whether a character of the text starts at byte `n`, or the text ends there. -/
def isBoundary (cs : List Char) (n : Nat) : Bool :=
  (dropBytes? n cs).isSome

/-- The last character boundary at or before byte `n`. -/
def boundaryBefore (cs : List Char) : Nat → Nat
  | 0 => 0
  | n + 1 => if isBoundary cs (n + 1) then n + 1 else boundaryBefore cs n

/-- Line and column of a byte offset, both from zero: the number of line feeds before it, and the
number of bytes since the last of them. -/
def lineColumn (offset : Nat) (cs : List Char) : Nat × Nat :=
  go 0 0 0 cs
where
  /-- `line` and `lineStart` belong to the byte `position` at which `cs` starts. -/
  go (line lineStart position : Nat) : List Char → Nat × Nat
    | [] => (line, offset - lineStart)
    | c :: cs =>
      if offset ≤ position then (line, offset - lineStart)
      else if c = '\n' then go (line + 1) (position + 1) (position + 1) cs
      else go line lineStart (position + c.utf8Size) cs

/-! ## Encoding -/

/-- The UTF-8 form of a text. -/
def encode (cs : List Char) : List UInt8 :=
  cs.flatMap String.utf8EncodeChar

/-! ## Decoding -/

/-- A character of which some bytes are still to come: how many, the range that the next one must
lie in, and the bits read so far. -/
structure OpenChar where
  owed : Nat
  low : Nat
  high : Nat
  bits : Nat

/-- What a byte at the start of a character means: a whole character, the start of a longer one,
or `none` if no character starts with it. -/
def leadByte (b : Nat) : Option (Char ⊕ OpenChar) :=
  if b < 0x80 then some (.inl (Char.ofNat b))
  else if b < 0xC2 then none
  else if b < 0xE0 then some (.inr ⟨1, 0x80, 0xBF, b - 0xC0⟩)
  else if b = 0xE0 then some (.inr ⟨2, 0xA0, 0xBF, 0⟩)
  else if b = 0xED then some (.inr ⟨2, 0x80, 0x9F, 0xD⟩)
  else if b < 0xF0 then some (.inr ⟨2, 0x80, 0xBF, b - 0xE0⟩)
  else if b = 0xF0 then some (.inr ⟨3, 0x90, 0xBF, 0⟩)
  else if b < 0xF4 then some (.inr ⟨3, 0x80, 0xBF, b - 0xF0⟩)
  else if b = 0xF4 then some (.inr ⟨3, 0x80, 0x8F, 4⟩)
  else none

/-- What a byte completes at the start of a character, and the character that is open after it.
`none` stands for a place where the bytes are no UTF-8. -/
def startChar (b : Nat) : List (Option Char) × Option OpenChar :=
  match leadByte b with
  | some (.inl c) => ([some c], none)
  | some (.inr pending) => ([], some pending)
  | none => ([none], none)

/-- What a byte completes, and the character that is open after it. A byte that does not fit an
open character ends it and starts another one. -/
def takeByte (state : Option OpenChar) (b : Nat) : List (Option Char) × Option OpenChar :=
  match state with
  | none => startChar b
  | some pending =>
    if pending.low ≤ b ∧ b ≤ pending.high then
      let bits := pending.bits * 64 + (b - 0x80)
      if pending.owed ≤ 1 then ([some (Char.ofNat bits)], none)
      else ([], some ⟨pending.owed - 1, 0x80, 0xBF, bits⟩)
    else (none :: (startChar b).1, (startChar b).2)

/-- The characters of a byte sequence; `none` stands for a place where the bytes are no UTF-8. -/
def decodeFrom : Option OpenChar → List UInt8 → List (Option Char)
  | none, [] => []
  | some _, [] => [none]
  | state, byte :: bytes =>
    (takeByte state byte.toNat).1 ++ decodeFrom (takeByte state byte.toNat).2 bytes

/-- The replacement character. -/
def replacement : Char := '\uFFFD'

/-- The text of a byte sequence, with the replacement character where it is no UTF-8. -/
def decodeLossy (bytes : List UInt8) : List Char :=
  (decodeFrom none bytes).map fun c => c.getD replacement

/-- Whether a byte sequence is UTF-8. -/
def isUtf8 (bytes : List UInt8) : Bool :=
  (decodeFrom none bytes).all Option.isSome

/-- The text of a byte sequence that is UTF-8. -/
def decode? (bytes : List UInt8) : Option (List Char) :=
  if isUtf8 bytes then some (decodeLossy bytes) else none

end Precis.Text
