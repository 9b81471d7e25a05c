/-!
# Type expressions

A type as a declaration mentions it: a name, arguments in order, and whether it may be null. An
array is written with the name `[]` and its element type as the only argument. A spelling that has
none of these forms is the name of a type without arguments, whatever it contains.
-/

namespace Precis

/-- A mention of a type. -/
structure TypeExpr where
  name : String
  args : List TypeExpr := []
  nullable : Bool := false

namespace TypeExpr

/-- The name that marks arrays. -/
def arrayName : String := "[]"

/-- A type without arguments. -/
def named (name : List Char) : TypeExpr where
  name := String.ofList name

/-- The array type with the given elements. -/
def array (element : TypeExpr) : TypeExpr where
  name := arrayName
  args := [element]

/-- The type, and null besides. -/
def orNull (t : TypeExpr) : TypeExpr :=
  { t with nullable := true }

/-- Whether a type is an array. -/
def isArray (t : TypeExpr) : Bool :=
  t.name == arrayName && t.args.length == 1

/-! ## Written form -/

mutual

/-- The written form of a type: `Name<A, B>`, `Element[]`, and `?` behind a type that may be
null. -/
def display : TypeExpr → List Char
  | ⟨name, args, nullable⟩ =>
    let core :=
      if name = arrayName ∧ args.length = 1 then displayArgs args ++ ['[', ']']
      else if args.isEmpty then name.toList
      else name.toList ++ '<' :: displayArgs args ++ ['>']
    if nullable then core ++ ['?'] else core

/-- The written forms of arguments, with a comma and a space between them. -/
def displayArgs : List TypeExpr → List Char
  | [] => []
  | [arg] => display arg
  | arg :: next :: rest => display arg ++ ',' :: ' ' :: displayArgs (next :: rest)

end

/-! ## Equality -/

mutual

/-- Equality of types is decidable. -/
def decEq : (a b : TypeExpr) → Decidable (a = b)
  | ⟨name, args, nullable⟩, ⟨name', args', nullable'⟩ =>
    if hname : name = name' then
      if hnullable : nullable = nullable' then
        match decEqArgs args args' with
        | isTrue hargs => isTrue (by rw [hname, hnullable, hargs])
        | isFalse hargs => isFalse (by simp_all)
      else isFalse (by simp [hnullable])
    else isFalse (by simp [hname])

/-- Equality of argument lists is decidable. -/
def decEqArgs : (as bs : List TypeExpr) → Decidable (as = bs)
  | [], [] => isTrue rfl
  | [], _ :: _ => isFalse (by simp)
  | _ :: _, [] => isFalse (by simp)
  | a :: as, b :: bs =>
    match decEq a b, decEqArgs as bs with
    | isTrue h, isTrue hs => isTrue (by rw [h, hs])
    | isFalse h, _ => isFalse (by simp [h])
    | _, isFalse hs => isFalse (by simp [hs])

end

instance : DecidableEq TypeExpr := decEq

end TypeExpr

end Precis
