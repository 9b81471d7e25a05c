import Precis.Json.Reading
import Precis.ParseTree

/-!
# Parse trees from JSON

The written form of a node is an array of its kind, its role, its marks, the byte offsets of its
start and its end, and the array of its children. The marks are added up from 1 for a named node,
2 for a missing one and 4 for a faulty one. Trees may be as deep as they like.
-/

namespace Precis.ParseTree

open Json

mutual

/-- The tree that a JSON value denotes. -/
def ofReading? : Reading → Option ParseTree
  | .arr [.str (some kind), .str (some role), .num marks, .num start, .num stop,
      .arr children true] true => do
    let marks ← marks.toIndex?
    let start ← start.toIndex?
    let stop ← stop.toIndex?
    let children ← ofReadings? children
    return ⟨kind, role, marks.testBit 0, marks.testBit 1, marks.testBit 2, start, stop, children⟩
  | _ => none

/-- The trees that a list of JSON values denotes. -/
def ofReadings? : List Reading → Option (List ParseTree)
  | [] => some []
  | item :: rest => do
    let tree ← ofReading? item
    let trees ← ofReadings? rest
    return tree :: trees

end

/-- The tree that a text denotes. -/
def ofText? (text : List Char) : Option ParseTree :=
  let document := Document.parse text
  if document.clean then ofReading? document.value else none

end Precis.ParseTree
