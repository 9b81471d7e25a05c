import Precis.Json.Value
import Precis.Node

/-!
# Outlines as JSON values

Members stand in a fixed order, and a node's kind comes first. A list that is empty, a flag that is
off and an option without a value are left out, except that a function always lists its parameters
and an import always names its kind.
-/

namespace Precis

open Json

/-! ## Names -/

namespace CommentFormat

/-- Every format, in order. -/
def all : List CommentFormat := [line, block, doc]

/-- The name of a format. -/
def id : CommentFormat → String
  | line => "line"
  | block => "block"
  | doc => "doc"

end CommentFormat

namespace Severity

/-- Every severity, in order. -/
def all : List Severity := [warning, error]

/-- The name of a severity. -/
def id : Severity → String
  | warning => "warning"
  | error => "error"

end Severity

namespace ImportKind

/-- Every kind of import, in order. -/
def all : List ImportKind := [plain, static, global, namespaced]

/-- The name of a kind of import. -/
def id : ImportKind → String
  | plain => "plain"
  | static => "static"
  | global => "global"
  | namespaced => "namespace"

end ImportKind

/-! ## Parts of declarations -/

/-- A list of strings. -/
def encodeTexts (texts : List String) : List Value :=
  texts.map .str

def Location.encode (l : Location) : Value :=
  .obj [("start_line", .num l.startLine), ("start_column", .num l.startColumn),
    ("end_line", .num l.endLine), ("end_column", .num l.endColumn),
    ("start_byte", .num l.startByte), ("end_byte", .num l.endByte)]

def ModifierSet.encode (s : ModifierSet) : List Value :=
  s.toList.map fun m => .str m.id

namespace TypeExpr

mutual

def encode : TypeExpr → Value
  | ⟨name, args, nullable⟩ =>
    .obj (("name", .str name) :: listMember "args" (encodeAll args) ++
      flagMember "nullable" nullable)

def encodeAll : List TypeExpr → List Value
  | [] => []
  | t :: ts => t.encode :: encodeAll ts

end

end TypeExpr

def TypeParameter.encode (p : TypeParameter) : Value :=
  .obj (("name", .str p.name) :: listMember "bounds" (TypeExpr.encodeAll p.bounds) ++
    member? "default" (p.default.map TypeExpr.encode))

def Parameter.encode (p : Parameter) : Value :=
  .obj (("name", .str p.name) :: member? "type" (p.type.map TypeExpr.encode) ++
    member? "default_value" (p.default.map .str) ++ flagMember "optional" p.optional ++
    flagMember "variadic" p.variadic)

def ImportedName.encode (n : ImportedName) : Value :=
  .obj (("name", .str n.name) :: member? "alias" (n.localName.map .str))

/-- The members of a comment. -/
def Comment.members (c : Comment) : List (String × Value) :=
  [("text", .str c.text), ("format", .str c.format.id), ("location", c.location.encode)]

def Comment.encode (c : Comment) : Value :=
  .obj c.members

/-! ## Nodes -/

/-- The member for the children of a branch. -/
def childrenMember (children : List Value) : List (String × Value) :=
  listMember "children" children

/-- The members of a file, apart from its children. -/
def FileHead.members (h : FileHead) : List (String × Value) :=
  [("path", .str h.path), ("language", .str h.language.id), ("location", h.location.encode)]

/-- The members of a package, apart from its children. -/
def PackageHead.members (h : PackageHead) : List (String × Value) :=
  [("name", .str h.name), ("location", h.location.encode)]

/-- The members of a type declaration, apart from its children. -/
def TypeHead.members (h : TypeHead) : List (String × Value) :=
  [("name", .str h.name), ("visibility", .str h.visibility.id)] ++
    listMember "modifiers" h.modifiers.encode ++
    listMember "decorators" (encodeTexts h.decorators) ++
    listMember "type_params" (h.typeParameters.map TypeParameter.encode) ++
    listMember "extends" (TypeExpr.encodeAll h.bases) ++
    listMember "implements" (TypeExpr.encodeAll h.interfaces) ++
    member? "underlying" (h.underlying.map TypeExpr.encode) ++
    member? "doc" (h.doc.map Comment.encode) ++
    [("location", h.location.encode)]

/-- The members of a branch, apart from its kind and its children. -/
def Head.members : Head → List (String × Value)
  | file head => head.members
  | package head => head.members
  | type head => head.members

/-- The members of an import. -/
def Import.members (i : Import) : List (String × Value) :=
  [("module", .str i.module), ("import_kind", .str i.kind.id)] ++
    listMember "symbols" (i.names.map ImportedName.encode) ++
    [("location", i.location.encode)]

/-- The members of a function. -/
def Function.members (f : Function) : List (String × Value) :=
  [("name", .str f.name), ("visibility", .str f.visibility.id)] ++
    listMember "modifiers" f.modifiers.encode ++
    listMember "decorators" (encodeTexts f.decorators) ++
    listMember "type_params" (f.typeParameters.map TypeParameter.encode) ++
    [("parameters", .arr (f.parameters.map Parameter.encode))] ++
    member? "return_type" (f.result.map TypeExpr.encode) ++
    listMember "throws" (TypeExpr.encodeAll f.throws) ++
    member? "implementation" (f.body.map .str) ++
    member? "doc" (f.doc.map Comment.encode) ++
    [("location", f.location.encode)]

/-- The members of a field. -/
def Field.members (f : Field) : List (String × Value) :=
  [("name", .str f.name), ("visibility", .str f.visibility.id)] ++
    listMember "modifiers" f.modifiers.encode ++
    listMember "decorators" (encodeTexts f.decorators) ++
    member? "type" (f.type.map TypeExpr.encode) ++
    member? "default_value" (f.value.map .str) ++
    flagMember "enum_member" f.enumMember ++
    member? "doc" (f.doc.map Comment.encode) ++
    [("location", f.location.encode)]

/-- The members of a type alias. -/
def TypeAlias.members (a : TypeAlias) : List (String × Value) :=
  [("name", .str a.name), ("visibility", .str a.visibility.id)] ++
    listMember "type_params" (a.typeParameters.map TypeParameter.encode) ++
    [("aliased", a.target.encode)] ++
    member? "doc" (a.doc.map Comment.encode) ++
    [("location", a.location.encode)]

/-- The members of a problem. -/
def Problem.members (p : Problem) : List (String × Value) :=
  [("message", .str p.message), ("severity", .str p.severity.id)] ++
    member? "code" (p.code.map .str) ++
    [("location", p.location.encode)]

/-- The members of a leaf, apart from its kind. -/
def Leaf.members : Leaf → List (String × Value)
  | imported item => item.members
  | function item => item.members
  | field item => item.members
  | typeAlias item => item.members
  | comment item => item.members
  | problem item => item.members

/-- The member that names the kind of a node. -/
def kindMember (kind : NodeKind) : String × Value :=
  ("kind", .str kind.id)

namespace Node

mutual

def encode : Node → Value
  | branch head children =>
    .obj (kindMember head.kind :: head.members ++ childrenMember (encodeAll children))
  | leaf item => .obj (kindMember item.kind :: item.members)

def encodeAll : List Node → List Value
  | [] => []
  | node :: rest => node.encode :: encodeAll rest

end

end Node

def Outline.encode (o : Outline) : Value :=
  .obj (o.head.members ++ childrenMember (Node.encodeAll o.children))

end Precis
