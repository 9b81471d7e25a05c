import Precis.Node

/-!
# Editing nodes

An edit sets or extends one part of a node. It applies only to the kinds of nodes that have the
part, except that a doc comment may be offered to any node, and goes only to declarations.
-/

namespace Precis

/-- A change of one part of a node. -/
inductive Edit where
  /-- Offers a doc comment. -/
  | doc (doc : Comment)
  /-- Adds modifiers. -/
  | modifiers (items : List Modifier)
  /-- Sets the decorators. -/
  | decorators (items : List String)
  /-- Adds a child behind the others. -/
  | child (node : Node)
  /-- Sets the children. -/
  | children (nodes : List Node)
  /-- Sets the parameters of a generic type. -/
  | typeParameters (items : List TypeParameter)
  /-- Sets the types that a type extends. -/
  | bases (types : List TypeExpr)
  /-- Sets the types that a type implements. -/
  | interfaces (types : List TypeExpr)
  /-- Sets the parameters of a function. -/
  | parameters (items : List Parameter)
  /-- Sets the result type of a function. -/
  | result (t : TypeExpr)
  /-- Sets the body of a function. -/
  | body (text : String)
  /-- Sets the type of a field. -/
  | type (t : TypeExpr)
  /-- Sets the value of a field. -/
  | value (text : String)
  /-- Sets the names that an import brings in. -/
  | names (items : List ImportedName)

namespace Edit

/-- Changes the head of a type declaration. -/
def applyType? (head : TypeHead) : Edit → Option TypeHead
  | modifiers items => some { head with modifiers := head.modifiers.insertAll items }
  | decorators items => some { head with decorators := items }
  | typeParameters items => some { head with typeParameters := items }
  | bases types => some { head with bases := types }
  | interfaces types => some { head with interfaces := types }
  | _ => none

/-- Changes a function. -/
def applyFunction? (f : Function) : Edit → Option Function
  | modifiers items => some { f with modifiers := f.modifiers.insertAll items }
  | decorators items => some { f with decorators := items }
  | parameters items => some { f with parameters := items }
  | result t => some { f with result := some t }
  | body text => some { f with body := some text }
  | _ => none

/-- Changes a field. -/
def applyField? (f : Field) : Edit → Option Field
  | modifiers items => some { f with modifiers := f.modifiers.insertAll items }
  | decorators items => some { f with decorators := items }
  | type t => some { f with type := some t }
  | value text => some { f with value := some text }
  | _ => none

/-- Changes an import. -/
def applyImport? (i : Import) : Edit → Option Import
  | names items => some { i with names := items }
  | _ => none

/-- Changes a node; `none` if the edit does not apply to nodes of its kind. -/
def applyTo? (e : Edit) (node : Node) : Option Node :=
  match e, node with
  | doc comment, node => some (node.withDoc comment)
  | child _, .branch (.package _) _ => none
  | child node, .branch head nodes => some (.branch head (nodes ++ [node]))
  | children nodes, .branch head _ => some (.branch head nodes)
  | e, .branch (.type head) nodes => (e.applyType? head).map fun head => .branch (.type head) nodes
  | e, .leaf (.function item) => (e.applyFunction? item).map fun item => .leaf (.function item)
  | e, .leaf (.field item) => (e.applyField? item).map fun item => .leaf (.field item)
  | e, .leaf (.imported item) => (e.applyImport? item).map fun item => .leaf (.imported item)
  | _, _ => none

end Edit

end Precis
