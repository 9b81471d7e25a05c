import Precis.Node

/-!
# Doc comments and what they document

The siblings of a body are first turned into pieces; arranging the pieces then gives each doc
comment to the element after it. Doc comments in a row count as one, which runs from the start of
the first to the end of the last.
-/

namespace Precis

/-- What a sibling in a body contributes. -/
inductive Piece where
  /-- A doc comment for the next element. -/
  | doc (comment : Comment)
  /-- A node that stands where it is and leaves waiting doc comments waiting. -/
  | aside (node : Node)
  /-- The nodes that an element became. -/
  | element (nodes : List Node)
  /-- Nodes that take no doc comment; one that is waiting stands by itself in front of them. -/
  | group (nodes : List Node)

/-- Two doc comments as one. -/
def Comment.append (c d : Comment) : Comment :=
  { c with text := c.text ++ "\n" ++ d.text, location := c.location.upTo d.location }

/-- Adds a doc comment to the one that is waiting, if there is one. -/
def enqueue (waiting : Option Comment) (comment : Comment) : Comment :=
  match waiting with
  | some first => first.append comment
  | none => comment

/-- A doc comment that stands by itself. -/
def standalone (waiting : Option Comment) : List Node :=
  (waiting.map fun comment => Node.leaf (.comment comment)).toList

/-- Gives a doc comment to the nodes that an element became: each declaration among them gets it.
If there is none among them, it stands by itself in front of them; if there are no nodes at all, it
goes with them. -/
def document (waiting : Option Comment) (nodes : List Node) : List Node :=
  match waiting with
  | none => nodes
  | some comment =>
    if nodes.isEmpty then []
    else if nodes.any fun node => node.kind.isDeclaration then nodes.map (Node.withDoc comment)
    else .leaf (.comment comment) :: nodes

/-- The nodes of a body, given the doc comment that is waiting at its start. A doc comment that
nothing follows stands by itself at the end. -/
def arrangeFrom : Option Comment → List Piece → List Node
  | waiting, [] => standalone waiting
  | waiting, .doc comment :: rest => arrangeFrom (some (enqueue waiting comment)) rest
  | waiting, .aside node :: rest => node :: arrangeFrom waiting rest
  | waiting, .element nodes :: rest => document waiting nodes ++ arrangeFrom none rest
  | waiting, .group nodes :: rest => standalone waiting ++ nodes ++ arrangeFrom none rest

/-- The nodes of a body. -/
def arrange (pieces : List Piece) : List Node :=
  arrangeFrom none pieces

end Precis
