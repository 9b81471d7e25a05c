import Precis.Json.Numeral

/-!
# Reading JSON texts

A text is read into a `Reading`, a tree of everything that could be read before the first syntax
error. Reading never fails: where the text breaks off, the containers around that place stay
`closed := false`, and a value that could not be read is `broken`. Whoever interprets the tree in
order therefore sees the same things in the same order as one who reads the text piece by piece, and
can report the first fault whether it is one of form or one of content.
-/

namespace Precis.Json

/-- What was read of a text. A string is `none` if it holds half of a surrogate pair, which no
text can hold. -/
inductive Reading where
  | null
  | bool (b : Bool)
  | num (n : Numeral)
  | str (s : Option String)
  | arr (items : List Reading) (closed : Bool)
  | obj (members : List (Option String × Reading)) (closed : Bool)
  | broken
deriving Inhabited

/-- A text that was read: its value, and whether only white space follows it. -/
structure Document where
  value : Reading
  clean : Bool

namespace Scan

/-- White space between tokens. -/
def isSpace (c : Char) : Bool :=
  c == ' ' || c == '\n' || c == '\t' || c == '\r'

/-- Skips the white space before a token. -/
def skipSpace (cs : List Char) : List Char :=
  cs.dropWhile isSpace

/-- Whether the character is a decimal digit. -/
def isDigit (c : Char) : Bool :=
  '0' ≤ c && c ≤ '9'

/-- The value of a hexadecimal digit. -/
def hexValue? (c : Char) : Option Nat :=
  if '0' ≤ c ∧ c ≤ '9' then some (c.toNat - 48)
  else if 'a' ≤ c ∧ c ≤ 'f' then some (c.toNat - 87)
  else if 'A' ≤ c ∧ c ≤ 'F' then some (c.toNat - 55)
  else none

/-- The value of four hexadecimal digits. -/
def hexValue4? (a b c d : Char) : Option Nat := do
  let a ← hexValue? a
  let b ← hexValue? b
  let c ← hexValue? c
  let d ← hexValue? d
  return ((a * 16 + b) * 16 + c) * 16 + d

/-- The meaning of the character after a backslash, other than `u`. -/
def simpleEscape? (c : Char) : Option Char :=
  if c = '"' then some '"'
  else if c = '\\' then some '\\'
  else if c = '/' then some '/'
  else if c = 'b' then some '\x08'
  else if c = 'f' then some '\x0c'
  else if c = 'n' then some '\n'
  else if c = 'r' then some '\r'
  else if c = 't' then some '\t'
  else none

/-- One element of a string: a character, or a 16-bit unit written in hexadecimal. -/
inductive StringUnit where
  | char (c : Char)
  | hex (u : Nat)

/-- Reads a string after its opening quote: its elements and what follows the closing quote. A raw
control character and a malformed escape break the text. -/
def string? : List Char → Option (List StringUnit × List Char)
  | [] => none
  | '"' :: cs => some ([], cs)
  | '\\' :: 'u' :: a :: b :: c :: d :: cs => do
    let u ← hexValue4? a b c d
    let (units, rest) ← string? cs
    return (.hex u :: units, rest)
  | '\\' :: e :: cs => do
    let c ← simpleEscape? e
    let (units, rest) ← string? cs
    return (.char c :: units, rest)
  | c :: cs =>
    if c.toNat < 0x20 ∨ c = '\\' then none
    else do
      let (units, rest) ← string? cs
      return (.char c :: units, rest)

/-- The text of a string: a high and a low surrogate in a row are one character, and any other
surrogate makes the string unreadable. -/
def unite? : List StringUnit → Option (List Char)
  | [] => some []
  | .char c :: units => (unite? units).map (c :: ·)
  | .hex u :: .hex v :: units =>
    if 0xD800 ≤ u ∧ u < 0xDC00 then
      if 0xDC00 ≤ v ∧ v < 0xE000 then
        (unite? units).map (Char.ofNat (0x10000 + (u - 0xD800) * 0x400 + (v - 0xDC00)) :: ·)
      else none
    else if 0xDC00 ≤ u ∧ u < 0xE000 then none
    else (unite? (.hex v :: units)).map (Char.ofNat u :: ·)
  | .hex u :: units =>
    if 0xD800 ≤ u ∧ u < 0xE000 then none
    else (unite? units).map (Char.ofNat u :: ·)

/-- The text that the elements of a string stand for. -/
def text? (units : List StringUnit) : Option String :=
  (unite? units).map String.ofList

/-- Reads the digits before the point: a zero stands alone. -/
def whole? (cs : List Char) : Option (List Char × List Char) :=
  match cs with
  | '0' :: rest =>
    match rest with
    | d :: _ => if isDigit d then none else some (['0'], rest)
    | [] => some (['0'], [])
  | _ =>
    let digits := cs.takeWhile isDigit
    if digits.isEmpty then none else some (digits, cs.dropWhile isDigit)

/-- Reads the point and the digits after it, if there is a point. -/
def fraction? (cs : List Char) : Option (Option (List Char) × List Char) :=
  match cs with
  | '.' :: rest =>
    let digits := rest.takeWhile isDigit
    if digits.isEmpty then none else some (some digits, rest.dropWhile isDigit)
  | _ => some (none, cs)

/-- Reads the exponent, if there is one; its first component says whether it is negative. -/
def exponent? (cs : List Char) : Option (Option (Bool × List Char) × List Char) :=
  match cs with
  | [] => some (none, [])
  | e :: rest =>
    if e = 'e' ∨ e = 'E' then
      let (negative, rest) :=
        match rest with
        | '+' :: rest => (false, rest)
        | '-' :: rest => (true, rest)
        | _ => (false, rest)
      let digits := rest.takeWhile isDigit
      if digits.isEmpty then none else some (some (negative, digits), rest.dropWhile isDigit)
    else some (none, cs)

/-- Reads a number. -/
def number? (cs : List Char) : Option (Numeral × List Char) := do
  let (negative, cs) :=
    match cs with
    | '-' :: rest => (true, rest)
    | _ => (false, cs)
  let (whole, cs) ← whole? cs
  let (fraction, cs) ← fraction? cs
  let (exponent, cs) ← exponent? cs
  return (⟨negative, whole, fraction, exponent⟩, cs)

mutual

/-- Reads a value, with what follows it if the text did not break off. The first argument bounds
the number of nested calls; a text never needs more than two for each character and one for its
end. -/
def value : Nat → List Char → Reading × Option (List Char)
  | 0, _ => (.broken, none)
  | fuel + 1, cs =>
    match skipSpace cs with
    | '\x7b' :: rest =>
      match skipSpace rest with
      | '\x7d' :: after => (.obj [] true, some after)
      | inside =>
        let (members, after) := members fuel inside
        (.obj members after.isSome, after)
    | '[' :: rest =>
      match skipSpace rest with
      | ']' :: after => (.arr [] true, some after)
      | inside =>
        let (items, after) := items fuel inside
        (.arr items after.isSome, after)
    | '"' :: rest =>
      match string? rest with
      | some (units, after) => (.str (text? units), some after)
      | none => (.broken, none)
    | 'n' :: 'u' :: 'l' :: 'l' :: after => (.null, some after)
    | 't' :: 'r' :: 'u' :: 'e' :: after => (.bool true, some after)
    | 'f' :: 'a' :: 'l' :: 's' :: 'e' :: after => (.bool false, some after)
    | rest =>
      match number? rest with
      | some (n, after) => (.num n, some after)
      | none => (.broken, none)

/-- Reads the elements of an array up to its end. -/
def items : Nat → List Char → List Reading × Option (List Char)
  | 0, _ => ([], none)
  | fuel + 1, cs =>
    match value fuel cs with
    | (item, none) => ([item], none)
    | (item, some rest) =>
      match skipSpace rest with
      | ']' :: after => ([item], some after)
      | ',' :: after =>
        let (others, after) := items fuel after
        (item :: others, after)
      | _ => ([item], none)

/-- Reads the members of an object up to its end. -/
def members : Nat → List Char → List (Option String × Reading) × Option (List Char)
  | 0, _ => ([], none)
  | fuel + 1, cs =>
    match skipSpace cs with
    | '"' :: rest =>
      match string? rest with
      | none => ([], none)
      | some (units, rest) =>
        let key := text? units
        match skipSpace rest with
        | ':' :: rest =>
          match value fuel rest with
          | (item, none) => ([(key, item)], none)
          | (item, some rest) =>
            match skipSpace rest with
            | '\x7d' :: after => ([(key, item)], some after)
            | ',' :: after =>
              let (others, after) := members fuel after
              ((key, item) :: others, after)
            | _ => ([(key, item)], none)
        | _ => ([(key, .broken)], none)
    | _ => ([], none)

end

end Scan

/-- Reads a whole text. -/
def Document.parse (text : List Char) : Document :=
  match Scan.value (2 * text.length + 1) text with
  | (value, some rest) => ⟨value, (Scan.skipSpace rest).isEmpty⟩
  | (value, none) => ⟨value, false⟩

end Precis.Json
