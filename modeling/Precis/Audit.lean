import Precis.Node.Walk

/-!
# Audit of outlines

The rules that a well-made outline follows, and the list of all places where an outline breaks one.
Nodes are looked at in walking order. Within a node, a location that ends before it starts comes
first, then what is wrong with its place or its members, then a missing name.
-/

namespace Precis

/-- A broken rule, with what is needed to find the place. -/
inductive Finding where
  /-- An enum member that is not public. -/
  | memberNotPublic (enumName member : String)
  /-- An enum member that is not both static and constant. -/
  | memberNotConstant (enumName member : String)
  /-- A file inside a file. -/
  | nestedFile (path : String) (location : Location)
  /-- A declaration without a name. -/
  | unnamed (kind : NodeKind) (location : Location)
  /-- A location that ends before it starts. -/
  | inverted (kind : NodeKind) (location : Location)
deriving DecidableEq

namespace Finding

/-- The wording of a finding. -/
def message : Finding → String
  | memberNotPublic enumName member =>
    "enum member " ++ enumName ++ "::" ++ member ++ " is not public"
  | memberNotConstant enumName member =>
    "enum member " ++ enumName ++ "::" ++ member ++ " lacks static const"
  | nestedFile path location => "file '" ++ path ++ "' nested at line " ++ toString location.startLine
  | unnamed kind location => "unnamed " ++ kind.id ++ " at line " ++ toString location.startLine
  | inverted kind location =>
    kind.id ++ " has inverted location " ++ toString location.startByte ++ ".." ++
      toString location.endByte

end Finding

namespace Node

/-- What is wrong with a node as a member of an enum. -/
def memberFindings (enumName : String) : Node → List Finding
  | leaf (.field item) =>
    if item.enumMember then
      (if item.visibility = .pub then [] else [.memberNotPublic enumName item.name]) ++
      (if item.modifiers.has .static && item.modifiers.has .const then []
        else [.memberNotConstant enumName item.name])
    else []
  | _ => []

/-- What is wrong with the place or the members of a branch. -/
def branchFindings (head : Head) (children : List Node) : List Finding :=
  match head with
  | .file head => [.nestedFile head.path head.location]
  | .type head =>
    if head.kind = .enumType then children.flatMap (memberFindings head.name) else []
  | .package _ => []

/-- What is wrong with a node by itself. -/
def findings (node : Node) : List Finding :=
  (if node.location.inverted then [.inverted node.kind node.location] else []) ++
  (match node with
    | branch head children => branchFindings head children
    | leaf _ => []) ++
  (if node.kind.isDeclaration && node.name? == some "" then [.unnamed node.kind node.location]
    else [])

end Node

/-- All broken rules of an outline. -/
def Outline.findings (o : Outline) : List Finding :=
  o.walk.flatMap Node.findings

end Precis
