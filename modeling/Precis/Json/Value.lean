/-!
# JSON values and their two written forms

Objects keep the order in which their members are written. The compact form has no white space at
all; the indented form puts each member and each array element on a line of its own, two spaces
deeper than its container, and writes empty containers as `[]` and `{}`.
-/

namespace Precis.Json

/-- A JSON value as this library writes it: the only numbers are natural numbers. -/
inductive Value where
  | null
  | bool (b : Bool)
  | num (n : Nat)
  | str (s : String)
  | arr (items : List Value)
  | obj (members : List (String × Value))
deriving Inhabited

/-! ## Strings and numbers -/

/-- The digit of a number below sixteen, with small letters. -/
def hexDigit (n : Nat) : Char :=
  if n < 10 then Char.ofNat (48 + n) else Char.ofNat (87 + n)

/-- How a character is written inside a string: a quote, a backslash and the control characters
below U+0020 are escaped, everything else stands for itself. -/
def escapeChar (c : Char) : List Char :=
  if c = '"' then ['\\', '"']
  else if c = '\\' then ['\\', '\\']
  else if c = '\x08' then ['\\', 'b']
  else if c = '\x0c' then ['\\', 'f']
  else if c = '\n' then ['\\', 'n']
  else if c = '\r' then ['\\', 'r']
  else if c = '\t' then ['\\', 't']
  else if c.toNat < 0x20 then
    ['\\', 'u', '0', '0', hexDigit (c.toNat / 16), hexDigit (c.toNat % 16)]
  else [c]

/-- A string between quotes. -/
def quote (s : String) : List Char :=
  '"' :: s.toList.flatMap escapeChar ++ ['"']

/-- The decimal digits of a number. -/
def decimal (n : Nat) : List Char :=
  Nat.toDigits 10 n

/-- The texts of the three literals. -/
def literal : Option Bool → List Char
  | none => ['n', 'u', 'l', 'l']
  | some true => ['t', 'r', 'u', 'e']
  | some false => ['f', 'a', 'l', 's', 'e']

/-! ## Compact form -/

mutual

/-- The compact form of a value. -/
def Value.compact : Value → List Char
  | .null => literal none
  | .bool b => literal (some b)
  | .num n => decimal n
  | .str s => quote s
  | .arr items => '[' :: compactItems items ++ [']']
  | .obj members => '\x7b' :: compactMembers members ++ ['\x7d']

/-- The compact forms of array elements, with commas between them. -/
def compactItems : List Value → List Char
  | [] => []
  | [item] => item.compact
  | item :: next :: rest => item.compact ++ ',' :: compactItems (next :: rest)

/-- The compact forms of object members, with commas between them. -/
def compactMembers : List (String × Value) → List Char
  | [] => []
  | [(key, value)] => quote key ++ ':' :: value.compact
  | (key, value) :: next :: rest =>
    quote key ++ ':' :: value.compact ++ ',' :: compactMembers (next :: rest)

end

/-! ## Indented form -/

/-- A line end followed by the white space of the given depth. -/
def newLine (depth : Nat) : List Char :=
  '\n' :: List.replicate (2 * depth) ' '

mutual

/-- The indented form of a value that stands at the given depth. -/
def Value.indented (depth : Nat) : Value → List Char
  | .null => literal none
  | .bool b => literal (some b)
  | .num n => decimal n
  | .str s => quote s
  | .arr [] => ['[', ']']
  | .arr (item :: rest) =>
    '[' :: indentedItems (depth + 1) (item :: rest) ++ newLine depth ++ [']']
  | .obj [] => ['\x7b', '\x7d']
  | .obj (member :: rest) =>
    '\x7b' :: indentedMembers (depth + 1) (member :: rest) ++ newLine depth ++ ['\x7d']

/-- The indented forms of array elements, each on a line of its own. -/
def indentedItems (depth : Nat) : List Value → List Char
  | [] => []
  | [item] => newLine depth ++ item.indented depth
  | item :: next :: rest =>
    newLine depth ++ item.indented depth ++ ',' :: indentedItems depth (next :: rest)

/-- The indented forms of object members, each on a line of its own. -/
def indentedMembers (depth : Nat) : List (String × Value) → List Char
  | [] => []
  | [(key, value)] => newLine depth ++ quote key ++ ':' :: ' ' :: value.indented depth
  | (key, value) :: next :: rest =>
    newLine depth ++ quote key ++ ':' :: ' ' :: value.indented depth ++
      ',' :: indentedMembers depth (next :: rest)

end

/-- The compact text of a value. -/
def Value.toCompact (v : Value) : String :=
  String.ofList v.compact

/-- The indented text of a value. -/
def Value.toIndented (v : Value) : String :=
  String.ofList (v.indented 0)

/-! ## Building objects -/

/-- A member that is left out when there is no value. -/
def member? (key : String) (value : Option Value) : List (String × Value) :=
  (value.map fun v => (key, v)).toList

/-- A member that is left out when the list is empty. -/
def listMember (key : String) (items : List Value) : List (String × Value) :=
  if items.isEmpty then [] else [(key, .arr items)]

/-- A member that is left out unless it is true. -/
def flagMember (key : String) (flag : Bool) : List (String × Value) :=
  if flag then [(key, .bool true)] else []

end Precis.Json
