import Precis.Node
import Precis.Text.Blank
import Precis.Text.Cut
import Precis.TypeExpr.Parse

/-!
# Names and types in Java sources

What package and import declarations name, and the types that spellings with dimensions denote.
-/

namespace Precis.Java

open Text

/-- The text between a keyword and the semicolon of a declaration. -/
def declared (keyword cs : List Char) : List Char :=
  trim (dropEndWhile (· == ';') (dropPrefixes keyword cs))

/-- The name in a package declaration. -/
def packageName (cs : List Char) : List Char :=
  declared "package".toList cs

/-- What an import declaration imports: the text after its keyword, and whether that was `static`
as well. -/
def importTarget (cs : List Char) : ImportKind × List Char :=
  let text := declared "import".toList cs
  match dropPrefix? "static".toList text with
  | some (c :: rest) => if isBlank c then (.static, removeBlanks rest) else (.plain, removeBlanks text)
  | _ => (.plain, removeBlanks text)

/-- The module and the names of an import: the last part of a dotted name is the name that is
imported from the rest. -/
def importNames (path : List Char) : String × List ImportedName :=
  match splitLast? ['.'] path with
  | none => (String.ofList path, [])
  | some (module, name) =>
    (String.ofList module, if name = [] then [] else [{ name := String.ofList name }])

/-- A type; `void` is none. -/
def type? (cs : List Char) : Option TypeExpr :=
  if trim cs = "void".toList then none else some (TypeExpr.parse cs)

/-- A type with one array dimension more for each opening bracket of a text. -/
def withDimensions (t : TypeExpr) (dimensions : List Char) : TypeExpr :=
  (List.replicate (dimensions.count '[') ()).foldl (fun t _ => t.array) t

end Precis.Java
