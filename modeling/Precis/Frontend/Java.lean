import Precis.Docs
import Precis.Frontend.JavaNames
import Precis.ParseTree

/-!
# Outlines of Java sources

The package, imports, types and their members become nodes. A member without an access modifier is
package-private, and public in an interface; a constructor of an enum without one is private.
Constants of an interface are static and final, its methods without a body are abstract, and the
types in it are static. A record is a final data class with a public field for each component. A doc
comment belongs to the declaration after it.
-/

namespace Precis.Java

open Text

/-- What a member belongs to. -/
inductive Owner where
  | file
  | classType
  | interfaceType
  | enumType
deriving DecidableEq

/-- The visibility of a member without an access modifier. -/
def Owner.visibility : Owner → Visibility
  | interfaceType => .pub
  | file | classType | enumType => .package

/-! ## Modifiers -/

/-- The modifiers and annotations of a declaration. -/
def modifierParts (t : ParseTree) : List ParseTree :=
  ((t.firstOfKind? "modifiers").map ParseTree.children).getD []

/-- The visibility that a modifier expresses. -/
def visibilityOf? (kind : String) : Option Visibility :=
  if kind = "public" then some .pub
  else if kind = "private" then some .priv
  else if kind = "protected" then some .prot
  else none

/-- The access modifier of a declaration; of several the last one counts. -/
def access? (t : ParseTree) : Option Visibility :=
  ((modifierParts t).filterMap fun part => visibilityOf? part.kind).getLast?

/-- The visibility of a member of `owner`. -/
def visibility (owner : Owner) (t : ParseTree) : Visibility :=
  (access? t).getD owner.visibility

/-- The modifier that a keyword expresses. -/
def modifierOf? (kind : String) : Option Modifier :=
  if kind = "static" then some .static
  else if kind = "final" then some .final
  else if kind = "abstract" then some .abstract
  else if kind = "sealed" then some .sealed
  else if kind = "transient" then some .transient
  else if kind = "volatile" then some .volatile
  else if kind = "native" then some .external
  else none

/-- The modifiers that a declaration spells out. -/
def keywords (t : ParseTree) : List Modifier :=
  (modifierParts t).filterMap fun part => modifierOf? part.kind

/-- The annotations of a declaration. -/
def annotations (source : List Char) (t : ParseTree) : List String :=
  ((modifierParts t).filter fun part =>
    part.kind == "marker_annotation" || part.kind == "annotation").map
      fun part => String.ofList (part.text source)

/-- Whether a method is marked as a default method. -/
def isDefault (t : ParseTree) : Bool :=
  (modifierParts t).any fun part => part.kind == "default"

/-! ## Comments -/

/-- A comment. -/
def comment (source : List Char) (t : ParseTree) : Comment :=
  let text := t.text source
  let format :=
    if t.kind = "line_comment" then CommentFormat.line
    else if startsWith "/**".toList text && text != "/**/".toList then .doc
    else .block
  ⟨String.ofList text, format, t.location source⟩

/-- Whether a node is a comment. -/
def isComment (t : ParseTree) : Bool :=
  t.kind == "line_comment" || t.kind == "block_comment"

/-- What a comment contributes to a body. -/
def commentPiece (source : List Char) (t : ParseTree) : Piece :=
  let found := comment source t
  if found.format = .doc then .doc found else .aside (.leaf (.comment found))

/-! ## Parts of declarations -/

/-- The types that the named children of a node spell. -/
def typesOf (source : List Char) (t : ParseTree) : List TypeExpr :=
  t.parts.map fun part => TypeExpr.parse (part.text source)

/-- The types in the type list below a node. -/
def typeList (source : List Char) (t : ParseTree) : List TypeExpr :=
  ((t.firstOfKind? "type_list").map (typesOf source)).getD []

/-- The interfaces that a type implements. -/
def interfaces (source : List Char) (t : ParseTree) : List TypeExpr :=
  ((t.child? "interfaces").map (typeList source)).getD []

/-- A parameter of a generic declaration. -/
def typeParameter? (source : List Char) (t : ParseTree) : Option TypeParameter :=
  if t.kind = "type_parameter" then
    (t.firstOfKind? "type_identifier").map fun name =>
      { name := String.ofList (name.text source)
        bounds := ((t.firstOfKind? "type_bound").map (typesOf source)).getD [] }
  else none

/-- The parameters of a generic declaration. -/
def typeParameters (source : List Char) (t : ParseTree) : List TypeParameter :=
  match t.child? "type_parameters" with
  | some list => list.parts.filterMap (typeParameter? source)
  | none => []

/-- The type of a declaration, with the dimensions that `named` has behind its name. -/
def typeWith? (source : List Char) (t named : ParseTree) : Option TypeExpr :=
  ((t.textOf? "type" source).bind type?).map fun type =>
    withDimensions type ((named.textOf? "dimensions" source).getD [])

/-- A parameter of a method; one that takes any number of arguments has an array type. -/
def parameter? (source : List Char) (t : ParseTree) : Option Parameter :=
  if t.kind = "formal_parameter" then
    (t.textOf? "name" source).map fun name =>
      { name := String.ofList name, type := typeWith? source t t }
  else if t.kind = "spread_parameter" then
    let name := (t.firstOfKind? "variable_declarator").bind fun d => d.textOf? "name" source
    let element := t.parts.find? fun part =>
      part.kind != "modifiers" && part.kind != "variable_declarator"
    some
      { name := (name.map String.ofList).getD "args"
        type := (element.bind fun part => type? (part.text source)).map TypeExpr.array
        variadic := true }
  else none

/-- The parameters of a method. -/
def parameters (source : List Char) (t : ParseTree) : List Parameter :=
  match t.child? "parameters" with
  | some list => list.parts.filterMap (parameter? source)
  | none => []

/-- The exceptions that a method declares. -/
def throws (source : List Char) (t : ParseTree) : List TypeExpr :=
  ((t.firstOfKind? "throws").map (typesOf source)).getD []

/-! ## Leaves -/

/-- The import that a declaration makes. -/
def importNode (source : List Char) (t : ParseTree) : Node :=
  let (kind, path) := importTarget (t.text source)
  let (module, names) := importNames path
  .leaf (.imported { module := module, kind := kind, names := names, location := t.location source })

/-- The package that a declaration names. -/
def packageNode (source : List Char) (t : ParseTree) : Node :=
  .branch (.package ⟨String.ofList (packageName (t.text source)), t.location source⟩) []

/-- A method. -/
def method? (source : List Char) (owner : Owner) (t : ParseTree) : Option Node :=
  (t.textOf? "name" source).map fun name =>
    let implied : List Modifier :=
      if owner = .interfaceType ∧ (t.child? "body").isNone ∧ .static ∉ keywords t ∧ ¬ isDefault t
      then [.abstract] else []
    .leaf (.function
      { name := String.ofList name
        visibility := visibility owner t
        modifiers := .ofList (keywords t ++ implied)
        decorators := annotations source t
        typeParameters := typeParameters source t
        parameters := parameters source t
        result := typeWith? source t t
        throws := throws source t
        body := (t.textOf? "body" source).map String.ofList
        location := t.location source })

/-- A constructor: a function with the name of its class and no result. -/
def constructor? (source : List Char) (owner : Owner) (t : ParseTree) : Option Node :=
  (t.textOf? "name" source).map fun name =>
    .leaf (.function
      { name := String.ofList name
        visibility := (access? t).getD (if owner = .enumType then .priv else owner.visibility)
        modifiers := .ofList (keywords t)
        decorators := annotations source t
        typeParameters := typeParameters source t
        parameters := parameters source t
        throws := throws source t
        body := (t.textOf? "body" source).map String.ofList
        location := t.location source })

/-- The fields that a declaration declares, one for each declarator. -/
def fieldNodes (source : List Char) (owner : Owner) (t : ParseTree) : List Node :=
  let implied : List Modifier := if owner = .interfaceType then [.static, .final] else []
  (t.childrenOf "declarator").filterMap fun declarator =>
    (declarator.textOf? "name" source).map fun name =>
      .leaf (.field
        { name := String.ofList name
          visibility := visibility owner t
          modifiers := .ofList (keywords t ++ implied)
          decorators := annotations source t
          type := typeWith? source t declarator
          value := (declarator.textOf? "value" source).map String.ofList
          location := t.location source })

/-- The field of a record component. -/
def componentField? (source : List Char) (t : ParseTree) : Option Node :=
  if t.kind = "formal_parameter" then
    (t.textOf? "name" source).map fun name =>
      .leaf (.field
        { name := String.ofList name
          visibility := .pub
          modifiers := .ofList [.final]
          decorators := annotations source t
          type := (t.textOf? "type" source).bind type?
          location := t.location source })
  else none

/-- The fields of the components of a record. -/
def componentFields (source : List Char) (t : ParseTree) : List Node :=
  match t.child? "parameters" with
  | some list => list.parts.filterMap (componentField? source)
  | none => []

/-- The member that a constant of an enum declares. -/
def constantField? (source : List Char) (enumName : String) (t : ParseTree) : Option Node :=
  (t.textOf? "name" source).map fun name =>
    .leaf (.field (Field.ofEnum (String.ofList name) enumName (t.location source)))

/-- The node of a member that owns no others. -/
def leafMember (source : List Char) (owner : Owner) (t : ParseTree) : List Node :=
  if t.kind = "package_declaration" then [packageNode source t]
  else if t.kind = "import_declaration" then [importNode source t]
  else if t.kind = "method_declaration" ∨ t.kind = "annotation_type_element_declaration" then
    (method? source owner t).toList
  else if t.kind = "constructor_declaration" ∨ t.kind = "compact_constructor_declaration" then
    (constructor? source owner t).toList
  else if t.kind = "field_declaration" ∨ t.kind = "constant_declaration" then
    fieldNodes source owner t
  else []

/-! ## Types -/

/-- What all type declarations say alike. -/
def typeHead? (source : List Char) (owner : Owner) (kind : TypeKind) (t : ParseTree) :
    Option TypeHead :=
  (t.textOf? "name" source).map fun name =>
    let implied : List Modifier := if owner = .interfaceType then [.static] else []
    { kind := kind
      name := String.ofList name
      visibility := visibility owner t
      modifiers := .ofList (keywords t ++ implied)
      decorators := annotations source t
      typeParameters := typeParameters source t
      location := t.location source }

/-- The class that a class extends. -/
def superclass (source : List Char) (t : ParseTree) : List TypeExpr :=
  match (t.child? "superclass").map ParseTree.parts with
  | some (part :: _) => [TypeExpr.parse (part.text source)]
  | _ => []

def classHead? (source : List Char) (owner : Owner) (t : ParseTree) : Option TypeHead :=
  (typeHead? source owner .classType t).map fun head =>
    { head with bases := superclass source t, interfaces := interfaces source t }

def interfaceHead? (source : List Char) (owner : Owner) (t : ParseTree) : Option TypeHead :=
  (typeHead? source owner .interfaceType t).map fun head =>
    { head with bases := ((t.firstOfKind? "extends_interfaces").map (typeList source)).getD [] }

def enumHead? (source : List Char) (owner : Owner) (t : ParseTree) : Option TypeHead :=
  (typeHead? source owner .enumType t).map fun head =>
    { head with interfaces := interfaces source t }

def recordHead? (source : List Char) (owner : Owner) (t : ParseTree) : Option TypeHead :=
  (typeHead? source owner .classType t).map fun head =>
    { head with
      modifiers := head.modifiers.insertAll [.data, .final]
      interfaces := interfaces source t }

set_option linter.unusedVariables false in
mutual

/-- The nodes of a member. -/
def member (source : List Char) (owner : Owner) (t : ParseTree) : List Node :=
  if t.kind = "class_declaration" then
    (classHead? source owner t).toList.map fun head =>
      .branch (.type head) (body source .classType t)
  else if t.kind = "interface_declaration" ∨ t.kind = "annotation_type_declaration" then
    (interfaceHead? source owner t).toList.map fun head =>
      .branch (.type head) (body source .interfaceType t)
  else if t.kind = "enum_declaration" then
    (enumHead? source owner t).toList.map fun head =>
      .branch (.type head) <|
        match hbody : t.child? "body" with
        | none => []
        | some block =>
          arrange (block.parts.attach.map fun ⟨part, hpart⟩ => enumPiece source head.name part)
  else if t.kind = "record_declaration" then
    (recordHead? source owner t).toList.map fun head =>
      .branch (.type head) (componentFields source t ++ body source .classType t)
  else leafMember source owner t
termination_by (t.size, 1)
decreasing_by
  · exact Prod.Lex.right _ (by decide)
  · exact Prod.Lex.right _ (by decide)
  · exact Prod.Lex.left _ _
      (Nat.lt_trans (ParseTree.size_lt_of_mem_parts hpart) (ParseTree.size_lt_of_child? hbody))
  · exact Prod.Lex.right _ (by decide)

/-- The nodes in the body of a declaration. -/
def body (source : List Char) (owner : Owner) (t : ParseTree) : List Node :=
  match hbody : t.child? "body" with
  | none => []
  | some block => members source owner block
termination_by (t.size, 0)
decreasing_by
  exact Prod.Lex.left _ _ (ParseTree.size_lt_of_child? hbody)

/-- The nodes of the members that are the children of a node. -/
def members (source : List Char) (owner : Owner) (t : ParseTree) : List Node :=
  arrange (t.parts.attach.map fun ⟨part, hpart⟩ =>
    if isComment part then commentPiece source part else .element (member source owner part))
termination_by (t.size, 2)
decreasing_by
  exact Prod.Lex.left _ _ (ParseTree.size_lt_of_mem_parts hpart)

/-- What a child of the body of an enum contributes. -/
def enumPiece (source : List Char) (enumName : String) (t : ParseTree) : Piece :=
  if t.kind = "enum_constant" then .element (constantField? source enumName t).toList
  else if isComment t then commentPiece source t
  else if t.kind = "enum_body_declarations" then .group (members source .enumType t)
  else .element (member source .enumType t)
termination_by (t.size, 3)
decreasing_by
  · exact Prod.Lex.right _ (by decide)
  · exact Prod.Lex.right _ (by decide)

end

/-- A child that is a comment waits for its declaration; any other child is a member. -/
theorem members_eq (source : List Char) (owner : Owner) (t : ParseTree) :
    members source owner t = arrange (t.parts.map fun part =>
      if isComment part then commentPiece source part
      else .element (member source owner part)) := by
  rw [members]
  conv => rhs; rw [← List.attach_map_subtype_val t.parts, List.map_map]
  rfl

/-- A declaration without a body has no members. -/
theorem body_eq (source : List Char) (owner : Owner) (t : ParseTree) :
    body source owner t = ((t.child? "body").map (members source owner)).getD [] := by
  rw [body]
  split
  · rename_i h
    rw [h]
    rfl
  · rename_i h
    rw [h]
    rfl

/-- An enum holds what the children of its body contribute. -/
theorem member_of_enum (source : List Char) (owner : Owner) (t : ParseTree)
    (h : t.kind = "enum_declaration") :
    member source owner t = (enumHead? source owner t).toList.map fun head =>
      .branch (.type head)
        (((t.child? "body").map fun block =>
          arrange (block.parts.map (enumPiece source head.name))).getD []) := by
  rw [member]
  simp only [h]
  simp only [String.reduceEq, if_false, if_true, or_self]
  congr 1
  funext head
  congr 1
  split
  · rename_i h
    rw [h]
    rfl
  · rename_i block h
    rw [h]
    dsimp only [Option.map, Option.getD]
    congr 1
    conv => rhs; rw [← List.attach_map_subtype_val block.parts, List.map_map]
    rfl

/-- The nodes of a source file. -/
def outline (source : List Char) (root : ParseTree) : List Node :=
  members source .file root

end Precis.Java
