import Precis.Language
import Precis.Location
import Precis.Modifier
import Precis.TypeExpr

/-!
# Outlines

The outline of a source file is a tree of its declarations, in source order. A node is either a
branch, which has a head and owns other nodes, or a leaf. The heads are files, packages and the
four kinds of type declarations; everything else is a leaf. What a node says apart from its
children is its `Label`.
-/

namespace Precis

/-! ## Parts of declarations -/

/-- How a comment is written. -/
inductive CommentFormat where
  | line
  | block
  | doc
deriving DecidableEq

/-- How bad a problem in a source file is. -/
inductive Severity where
  | warning
  | error
deriving DecidableEq

/-- How names are brought in from elsewhere. -/
inductive ImportKind where
  | plain
  | static
  | global
  | namespaced
deriving DecidableEq

/-- A comment, with its delimiters, as it stands in the source. -/
structure Comment where
  text : String
  format : CommentFormat
  location : Location
deriving DecidableEq

/-- A parameter of a generic declaration. -/
structure TypeParameter where
  name : String
  bounds : List TypeExpr := []
  default : Option TypeExpr := none
deriving DecidableEq

/-- A parameter of a function. -/
structure Parameter where
  name : String
  type : Option TypeExpr := none
  default : Option String := none
  optional : Bool := false
  variadic : Bool := false
deriving DecidableEq

/-- The parameter with a default value, which makes it optional. -/
def Parameter.withDefault (p : Parameter) (value : String) : Parameter :=
  { p with default := some value, optional := true }

/-- A name brought in by an import, with the name it goes by from then on if that is another one.
`*` stands for all names. -/
structure ImportedName where
  name : String
  localName : Option String := none
deriving DecidableEq

/-- All names of a module. -/
def ImportedName.wildcard : ImportedName where
  name := "*"

/-- Whether an imported name stands for all names. -/
def ImportedName.isWildcard (s : ImportedName) : Bool :=
  s.name == "*"

/-! ## Heads of branches -/

/-- What an outline says about a file as a whole. -/
structure FileHead where
  path : String
  language : Language
  location : Location := {}
deriving DecidableEq

/-- A package, module or namespace. -/
structure PackageHead where
  name : String
  location : Location
deriving DecidableEq

/-- The four kinds of type declarations. -/
inductive TypeKind where
  | classType
  | interfaceType
  | structType
  | enumType
deriving DecidableEq

/-- A type declaration apart from its members. -/
structure TypeHead where
  kind : TypeKind
  name : String
  visibility : Visibility
  modifiers : ModifierSet := {}
  decorators : List String := []
  typeParameters : List TypeParameter := []
  bases : List TypeExpr := []
  interfaces : List TypeExpr := []
  underlying : Option TypeExpr := none
  doc : Option Comment := none
  location : Location
deriving DecidableEq

/-- The head of a branch. -/
inductive Head where
  | file (head : FileHead)
  | package (head : PackageHead)
  | type (head : TypeHead)
deriving DecidableEq

/-! ## Leaves -/

/-- An import. -/
structure Import where
  module : String
  kind : ImportKind := .plain
  names : List ImportedName := []
  location : Location
deriving DecidableEq

/-- Whether an import brings in all names. -/
def Import.isWildcard (i : Import) : Bool :=
  i.names.any ImportedName.isWildcard

/-- A function or method. -/
structure Function where
  name : String
  visibility : Visibility
  modifiers : ModifierSet := {}
  decorators : List String := []
  typeParameters : List TypeParameter := []
  parameters : List Parameter := []
  result : Option TypeExpr := none
  throws : List TypeExpr := []
  body : Option String := none
  doc : Option Comment := none
  location : Location
deriving DecidableEq

/-- A field, property, constant or enum member. -/
structure Field where
  name : String
  visibility : Visibility
  modifiers : ModifierSet := {}
  decorators : List String := []
  type : Option TypeExpr := none
  value : Option String := none
  enumMember : Bool := false
  doc : Option Comment := none
  location : Location
deriving DecidableEq

/-- The member of an enum: public, static and constant, and of the enum's type. -/
def Field.ofEnum (name enumName : String) (location : Location) : Field where
  name := name
  visibility := .pub
  modifiers := .ofList [.static, .const]
  type := some { name := enumName }
  enumMember := true
  location := location

/-- Whether a field is public, static and constant, as every enum member has to be. -/
def Field.isPublicConstant (f : Field) : Bool :=
  f.visibility == .pub && f.modifiers.has .static && f.modifiers.has .const

/-- A name for another type. -/
structure TypeAlias where
  name : String
  visibility : Visibility
  typeParameters : List TypeParameter := []
  target : TypeExpr
  doc : Option Comment := none
  location : Location
deriving DecidableEq

/-- A part of the source that could not be made sense of. -/
structure Problem where
  message : String
  severity : Severity
  code : Option String := none
  location : Location
deriving DecidableEq

/-- A node without children. -/
inductive Leaf where
  | imported (item : Import)
  | function (item : Function)
  | field (item : Field)
  | typeAlias (item : TypeAlias)
  | comment (item : Comment)
  | problem (item : Problem)
deriving DecidableEq

/-! ## Nodes -/

/-- A node of an outline. -/
inductive Node where
  | branch (head : Head) (children : List Node)
  | leaf (item : Leaf)

/-- The outline of a source file. -/
structure Outline where
  head : FileHead
  children : List Node := []

/-- What a node says apart from its children. -/
inductive Label where
  | head (head : Head)
  | leaf (item : Leaf)
deriving DecidableEq

/-- The kinds of nodes. -/
inductive NodeKind where
  | file
  | package
  | imported
  | type (kind : TypeKind)
  | function
  | field
  | typeAlias
  | comment
  | problem
deriving DecidableEq

namespace NodeKind

/-- Every kind, in order. -/
def all : List NodeKind :=
  [file, package, imported, type .classType, type .interfaceType, type .structType, type .enumType,
   function, field, typeAlias, comment, problem]

/-- The name of a kind. -/
def id : NodeKind → String
  | file => "file"
  | package => "package"
  | imported => "import"
  | type .classType => "class"
  | type .interfaceType => "interface"
  | type .structType => "struct"
  | type .enumType => "enum"
  | function => "function"
  | field => "field"
  | typeAlias => "type_alias"
  | comment => "comment"
  | problem => "error"

/-- Whether nodes of the kind own other nodes. -/
def isContainer : NodeKind → Bool
  | file | package | type _ => true
  | imported | function | field | typeAlias | comment | problem => false

/-- Whether nodes of the kind are declarations, which have a visibility and may have a doc
comment. -/
def isDeclaration : NodeKind → Bool
  | type _ | function | field | typeAlias => true
  | file | package | imported | comment | problem => false

end NodeKind

namespace Head

/-- The kind of a branch with this head. -/
def kind : Head → NodeKind
  | file _ => .file
  | package _ => .package
  | type head => .type head.kind

/-- The name of a branch: for a file, its path. -/
def name : Head → String
  | file head => head.path
  | package head => head.name
  | type head => head.name

/-- Where a branch stands. -/
def location : Head → Location
  | file head => head.location
  | package head => head.location
  | type head => head.location

/-- The visibility of a type declaration. -/
def visibility? : Head → Option Visibility
  | type head => some head.visibility
  | file _ | package _ => none

/-- The doc comment of a type declaration. -/
def doc? : Head → Option Comment
  | type head => head.doc
  | file _ | package _ => none

/-- The head with a doc comment, if it is that of a type declaration. -/
def withDoc (doc : Comment) : Head → Head
  | type head => type { head with doc := some doc }
  | other => other

end Head

namespace Leaf

/-- The kind of a leaf. -/
def kind : Leaf → NodeKind
  | imported _ => .imported
  | function _ => .function
  | field _ => .field
  | typeAlias _ => .typeAlias
  | comment _ => .comment
  | problem _ => .problem

/-- The name of a leaf: for an import, the module. -/
def name? : Leaf → Option String
  | imported item => some item.module
  | function item => some item.name
  | field item => some item.name
  | typeAlias item => some item.name
  | comment _ | problem _ => none

/-- Where a leaf stands. -/
def location : Leaf → Location
  | imported item => item.location
  | function item => item.location
  | field item => item.location
  | typeAlias item => item.location
  | comment item => item.location
  | problem item => item.location

/-- The visibility of a declaration. -/
def visibility? : Leaf → Option Visibility
  | function item => some item.visibility
  | field item => some item.visibility
  | typeAlias item => some item.visibility
  | imported _ | comment _ | problem _ => none

/-- The doc comment of a declaration. -/
def doc? : Leaf → Option Comment
  | function item => item.doc
  | field item => item.doc
  | typeAlias item => item.doc
  | imported _ | comment _ | problem _ => none

/-- The leaf with a doc comment, if it is a declaration. -/
def withDoc (doc : Comment) : Leaf → Leaf
  | function item => function { item with doc := some doc }
  | field item => field { item with doc := some doc }
  | typeAlias item => typeAlias { item with doc := some doc }
  | other => other

end Leaf

namespace Node

/-- What a node says apart from its children. -/
def label : Node → Label
  | branch head _ => .head head
  | leaf item => .leaf item

/-- The children of a node, in source order. -/
def children : Node → List Node
  | branch _ children => children
  | leaf _ => []

/-- The kind of a node. -/
def kind : Node → NodeKind
  | branch head _ => head.kind
  | leaf item => item.kind

/-- The name of a node, for kinds that have one. -/
def name? : Node → Option String
  | branch head _ => some head.name
  | leaf item => item.name?

/-- Where a node stands. -/
def location : Node → Location
  | branch head _ => head.location
  | leaf item => item.location

/-- The visibility of a declaration. -/
def visibility? : Node → Option Visibility
  | branch head _ => head.visibility?
  | leaf item => item.visibility?

/-- The doc comment of a declaration. -/
def doc? : Node → Option Comment
  | branch head _ => head.doc?
  | leaf item => item.doc?

/-- The name of a type declaration. -/
def typeName? : Node → Option String
  | branch (.type head) _ => some head.name
  | _ => none

/-- Gives a declaration a doc comment; other nodes stay as they are. -/
def withDoc (doc : Comment) : Node → Node
  | branch head children => branch (head.withDoc doc) children
  | leaf item => leaf (item.withDoc doc)

/-- The problem that a node reports. -/
def problem? : Node → Option Problem
  | leaf (.problem item) => some item
  | _ => none

end Node

end Precis
