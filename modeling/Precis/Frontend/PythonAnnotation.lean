import Precis.Text.Lines
import Precis.TypeExpr.Parse

/-!
# Python annotations

An annotation is a type expression in which `Optional[T]`, and a union one of whose alternatives is
`None`, stand for a type that may be null.
-/

namespace Precis.Python

open Text

/-- The alternatives of a union, trimmed, in order. -/
def alternatives (cs : List Char) : List (List Char) :=
  Brackets.ofUnions.split '|' cs

/-- The alternative that stands for null. -/
def noneName : List Char := ['N', 'o', 'n', 'e']

/-- Reads an annotation that is no union: the argument of `Optional` may be null. -/
def alternative (cs : List Char) : TypeExpr :=
  let t := TypeExpr.parse cs
  match t.args with
  | [arg] => if t.name = "Optional" ∨ t.name = "typing.Optional" then arg.orNull else t
  | _ => t

/-- The type that an annotation denotes. A union with `None` is the union of the other alternatives
and may be null, wherever `None` stands in it. -/
def annotation (cs : List Char) : TypeExpr :=
  let parts := alternatives (trim cs)
  if 1 < parts.length ∧ noneName ∈ parts then
    match parts.filter fun part => part ≠ noneName with
    | [part] => (alternative part).orNull
    | others => (TypeExpr.parse (joinWith [' ', '|', ' '] others)).orNull
  else alternative cs

end Precis.Python
