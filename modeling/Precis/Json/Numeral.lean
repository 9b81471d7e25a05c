/-!
# JSON numbers

A number is kept as it is spelled. It is an index if it is a plain run of digits below 2^64. It is
representable if it does not exceed the range of a 64-bit floating-point number, where only as many
leading digits count as fit into 64 bits.
-/

namespace Precis.Json

/-- A number as it is spelled: sign, digits before and after the point, and the exponent with a
mark for a negative one. -/
structure Numeral where
  negative : Bool
  whole : List Char
  fraction : Option (List Char)
  exponent : Option (Bool × List Char)

/-- One more than the largest index. -/
def indexBound : Nat := Nat.pow 2 64

/-- The value of a decimal digit. -/
def digitValue (c : Char) : Nat :=
  c.toNat - 48

/-- The number that a run of decimal digits stands for. -/
def ofDigits (digits : List Char) : Nat :=
  digits.foldl (fun n c => n * 10 + digitValue c) 0

namespace Numeral

/-- The index that the number spells. -/
def toIndex? (n : Numeral) : Option Nat :=
  match n with
  | ⟨false, whole, none, none⟩ => if ofDigits whole < indexBound then some (ofDigits whole) else none
  | _ => none

/-! ## Range -/

/-- Leading digits as an integer and a power of ten: digits are taken up while they fit into 64
bits, and from the first one that does not on each counts as a factor of ten. -/
def takeWhole (digits : List Char) : Nat × Int :=
  go 0 digits
where
  go (n : Nat) : List Char → Nat × Int
    | [] => (n, 0)
    | c :: cs =>
      if n * 10 + digitValue c < indexBound then go (n * 10 + digitValue c) cs
      else (n, (c :: cs).length)

/-- Takes up digits after the point while they fit into 64 bits; the rest is dropped. -/
def takeFraction : Nat × Int → List Char → Nat × Int
  | parts, [] => parts
  | (n, e), c :: cs =>
    if n * 10 + digitValue c < indexBound then takeFraction (n * 10 + digitValue c, e - 1) cs
    else (n, e)

/-- The digits and the power of ten of a number. -/
def scaled (n : Numeral) : Nat × Int :=
  let parts := takeFraction (takeWhole n.whole) (n.fraction.getD [])
  match n.exponent with
  | none => parts
  | some (negative, digits) =>
    let e : Int := ofDigits digits
    (parts.1, if negative then parts.2 - e else parts.2 + e)

/-- The nearest number with at most 53 significant bits; a tie goes to the even one. -/
def roundBits (n : Nat) : Nat :=
  if n < Nat.pow 2 53 then n else
    let unit := Nat.pow 2 (n.log2 - 52)
    let quotient := n / unit
    let remainder := n % unit
    if 2 * remainder > unit ∨ (2 * remainder = unit ∧ quotient % 2 = 1) then (quotient + 1) * unit
    else quotient * unit

/-- Where rounding to a 64-bit floating-point number goes to infinity. -/
def overflowBound : Nat := Nat.pow 2 1024 - Nat.pow 2 970

/-- Whether the number lies within the range of a 64-bit floating-point number. -/
def representable (n : Numeral) : Bool :=
  match n.scaled with
  | (0, _) => true
  | (digits, .ofNat e) => e ≤ 308 && roundBits digits * roundBits (Nat.pow 10 e) < overflowBound
  | (_, .negSucc _) => true

end Numeral

end Precis.Json
