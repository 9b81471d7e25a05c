import Precis.Docs
import Precis.ParseTree
import Precis.Frontend.RustUseTree
import Precis.TypeExpr.Parse

/-!
# Outlines of Rust sources

Items become nodes. Outer doc comments belong to what follows them; inner ones stand by themselves.
Attributes are the decorators of what follows them.

The members of all `impl` blocks for a type are put together. If the type is declared among the same
items, they become children of its declaration, the first one if there are several; otherwise they
form a class of their own in the place of the first block.
-/

namespace Precis.Rust

open Text

/-! ## Small parts -/

/-- The visibility that a visibility modifier expresses. -/
def visibilityOfText (cs : List Char) : Visibility :=
  let text := removeBlanks cs
  if text = "pub".toList then .pub
  else if text = "pub(self)".toList then .priv
  else .internal

/-- The visibility of an item; without a modifier it is private. -/
def visibility (source : List Char) (t : ParseTree) : Visibility :=
  match t.firstOfKind? "visibility_modifier" with
  | some modifier => visibilityOfText (modifier.text source)
  | none => .priv

/-- The last segment of the path of a type, without arguments. -/
def baseName (cs : List Char) : List Char :=
  let path := trim (cs.takeWhile (· != '<'))
  trim ((afterLast separator path).dropWhile (· == '&'))

/-- Whether a comment documents something. -/
def isDoc (cs : List Char) : Bool :=
  (startsWith "///".toList cs && !startsWith "////".toList cs) || startsWith "//!".toList cs ||
    (startsWith "/**".toList cs && !startsWith "/**/".toList cs) || startsWith "/*!".toList cs

/-- Whether a doc comment documents what it stands in. -/
def isInnerDoc (cs : List Char) : Bool :=
  startsWith "//!".toList cs || startsWith "/*!".toList cs

/-- Whether a node is a comment. -/
def isComment (t : ParseTree) : Bool :=
  t.kind == "line_comment" || t.kind == "block_comment"

/-- Whether a node is an attribute. -/
def isAttribute (t : ParseTree) : Bool :=
  t.kind == "attribute_item"

/-- A comment, without white space at its end. -/
def comment (source : List Char) (t : ParseTree) : Comment :=
  let text := t.text source
  let format :=
    if isDoc text then CommentFormat.doc
    else if t.kind = "block_comment" then .block
    else .line
  ⟨String.ofList (trimEnd text), format, t.location source⟩

/-- What a comment contributes to a body. -/
def commentPiece (source : List Char) (t : ParseTree) : Piece :=
  let found := comment source t
  if found.format = .doc && !isInnerDoc found.text.toList then .doc found
  else .aside (.leaf (.comment found))

/-- The integer types that can represent an enum. -/
def integerTypes : List String :=
  ["u8", "u16", "u32", "u64", "u128", "usize", "i8", "i16", "i32", "i64", "i128", "isize"]

/-- The integer type that an attribute chooses to represent an enum. -/
def representation? (written : String) : Option TypeExpr := do
  let text := removeBlanks written.toList
  let inner ← (dropPrefix? "#[repr(".toList text).bind (dropSuffix? ")]".toList)
  let names := (inner.splitOnP (· == ',')).map String.ofList
  let name ← names.find? fun name => integerTypes.contains name
  return { name := name }

/-! ## Attributes -/

/-- A sibling in a body with the attributes since the element before it. -/
structure Item where
  attributes : List String
  tree : ParseTree

/-- Gives attributes to the elements after them; comments in between have none and do not count. -/
def withAttributes (source : List Char) : List String → List ParseTree → List Item
  | _, [] => []
  | attributes, t :: rest =>
    if isAttribute t then withAttributes source (attributes ++ [String.ofList (t.text source)]) rest
    else if isComment t then ⟨[], t⟩ :: withAttributes source attributes rest
    else ⟨attributes, t⟩ :: withAttributes source [] rest

/-- The siblings in a body with their attributes. -/
def itemsOf (source : List Char) (parts : List ParseTree) : List Item :=
  withAttributes source [] parts

theorem mem_of_mem_withAttributes {source : List Char} {item : Item} {attributes : List String}
    {parts : List ParseTree} (h : item ∈ withAttributes source attributes parts) :
    item.tree ∈ parts := by
  induction parts generalizing attributes with
  | nil => simp [withAttributes] at h
  | cons t rest ih =>
    unfold withAttributes at h
    split at h
    · exact List.mem_cons_of_mem _ (ih h)
    · split at h
      · rcases List.mem_cons.1 h with rfl | h
        · exact List.mem_cons_self
        · exact List.mem_cons_of_mem _ (ih h)
      · rcases List.mem_cons.1 h with rfl | h
        · exact List.mem_cons_self
        · exact List.mem_cons_of_mem _ (ih h)

/-! ## Parts of declarations -/

/-- The types that the named children of the child with a role spell. -/
def boundsOf (source : List Char) (t : ParseTree) : List TypeExpr :=
  match t.child? "bounds" with
  | some bounds => bounds.parts.map fun part => TypeExpr.parse (part.text source)
  | none => []

/-- The type of the child with a role. -/
def typeOf? (source : List Char) (t : ParseTree) (role : String) : Option TypeExpr :=
  (t.textOf? role source).map TypeExpr.parse

/-- A parameter of a generic item. -/
def typeParameter (source : List Char) (t : ParseTree) : TypeParameter :=
  let name :=
    ((t.textOf? "name" source).or (t.textOf? "left" source)).getD
      ((t.text source).takeWhile (· != ':'))
  { name := String.ofList (trim name)
    bounds := boundsOf source t
    default := typeOf? source t "default_type" }

/-- The parameters of a generic item. -/
def typeParameters (source : List Char) (t : ParseTree) : List TypeParameter :=
  match t.child? "type_parameters" with
  | some list =>
    (list.parts.filter fun part => !isAttribute part && !isComment part).map (typeParameter source)
  | none => []

/-- A parameter of a function. The receiver has a type if it is more than the word `self`. -/
def parameter? (source : List Char) (t : ParseTree) : Option Parameter :=
  if t.kind = "parameter" then
    let pattern := (t.textOf? "pattern" source).getD ['_']
    let name := trim ((dropPrefix? ['m', 'u', 't', ' '] pattern).getD pattern)
    some { name := String.ofList name, type := typeOf? source t "type" }
  else if t.kind = "self_parameter" then
    let text := t.text source
    some
      { name := "self"
        type := if text = "self".toList then none else some (.named text) }
  else if t.kind = "variadic_parameter" then
    let name := (t.textOf? "pattern" source).getD ['.', '.', '.']
    some { name := String.ofList name, variadic := true }
  else none

/-- The parameters of a function. -/
def parameters (source : List Char) (t : ParseTree) : List Parameter :=
  match t.child? "parameters" with
  | some list => list.parts.filterMap (parameter? source)
  | none => []

/-- The modifier that a keyword before a function expresses. -/
def modifierOf? (kind : String) : Option Modifier :=
  if kind = "async" then some .async
  else if kind = "const" then some .const
  else if kind = "extern_modifier" then some .external
  else none

/-- The modifiers of a function. -/
def functionModifiers (t : ParseTree) : List Modifier :=
  match t.firstOfKind? "function_modifiers" with
  | some keywords => keywords.children.filterMap fun keyword => modifierOf? keyword.kind
  | none => []

/-- A function; `forced` overrides its own visibility. -/
def function? (source : List Char) (forced : Option Visibility) (item : Item) : Option Function :=
  let t := item.tree
  (t.textOf? "name" source).map fun name =>
    { name := String.ofList name
      visibility := forced.getD (visibility source t)
      modifiers := .ofList (functionModifiers t)
      decorators := item.attributes
      typeParameters := typeParameters source t
      parameters := parameters source t
      result := typeOf? source t "return_type"
      body := (t.textOf? "body" source).map String.ofList
      location := t.location source }

/-- A constant or static variable; `forced` overrides its own visibility. -/
def constant? (source : List Char) (forced : Option Visibility) (item : Item) : Option Node :=
  let t := item.tree
  (t.textOf? "name" source).map fun name =>
    .leaf (.field
      { name := String.ofList name
        visibility := forced.getD (visibility source t)
        modifiers := .ofList [if t.kind = "static_item" then .static else .const]
        decorators := item.attributes
        type := typeOf? source t "type"
        value := (t.textOf? "value" source).map String.ofList
        location := t.location source })

/-- A type alias; `forced` overrides its own visibility. -/
def typeAlias? (source : List Char) (forced : Option Visibility) (t : ParseTree) : Option Node := do
  let name ← t.textOf? "name" source
  let target ← typeOf? source t "type"
  return .leaf (.typeAlias
    { name := String.ofList name
      visibility := forced.getD (visibility source t)
      typeParameters := typeParameters source t
      target := target
      location := t.location source })

/-- A function as a node, with one modifier more if there is one to add. -/
def functionNode (extra : Function → Option Modifier) (f : Function) : Node :=
  .leaf (.function { f with modifiers := f.modifiers.insertAll (extra f).toList })

/-! ## Members of types -/

/-- Turns the siblings of a body into pieces: comments by themselves, elements by `nodes`. -/
def pieces (source : List Char) (nodes : Item → List Node) (items : List Item) : List Piece :=
  items.map fun item =>
    if isComment item.tree then commentPiece source item.tree else .element (nodes item)

/-- A field of a struct. -/
def field? (source : List Char) (item : Item) : Option Node :=
  let t := item.tree
  (t.textOf? "name" source).map fun name =>
    .leaf (.field
      { name := String.ofList name
        visibility := visibility source t
        decorators := item.attributes
        type := typeOf? source t "type"
        location := t.location source })

/-- The fields of a struct with named fields. Only fields, comments and attributes count; whatever
else stands between them is passed over. -/
def namedFields (source : List Char) (body : ParseTree) : List Node :=
  let parts := body.parts.filter fun part =>
    isAttribute part || isComment part || part.kind == "field_declaration"
  arrange (pieces source (fun item => (field? source item).toList) (itemsOf source parts))

/-- The fields of a tuple struct, which are named by their position. A visibility modifier counts
for the next field. -/
def tupleFieldsFrom (source : List Char) : Nat → Visibility → List ParseTree → List Node
  | _, _, [] => []
  | position, visibility, t :: rest =>
    if t.kind = "visibility_modifier" then
      tupleFieldsFrom source position (visibilityOfText (t.text source)) rest
    else if isAttribute t || isComment t then tupleFieldsFrom source position visibility rest
    else
      .leaf (.field
        { name := toString position
          visibility := visibility
          type := some (TypeExpr.parse (t.text source))
          location := t.location source }) ::
        tupleFieldsFrom source (position + 1) .priv rest

/-- The fields of a tuple struct. -/
def tupleFields (source : List Char) (body : ParseTree) : List Node :=
  tupleFieldsFrom source 0 .priv body.parts

/-- The fields of a struct or union. -/
def structFields (source : List Char) (t : ParseTree) : List Node :=
  match t.child? "body" with
  | some body =>
    if body.kind = "field_declaration_list" then namedFields source body
    else if body.kind = "ordered_field_declaration_list" then tupleFields source body
    else []
  | none => []

/-- The member that a variant of an enum declares. -/
def variant? (source : List Char) (enumName : List Char) (t : ParseTree) : Option Node :=
  (t.textOf? "name" source).map fun name =>
    .leaf (.field
      (Field.ofEnum (String.ofList name) (String.ofList enumName) (t.location source)))

/-- The members of an enum. Only variants and comments count. -/
def variants (source : List Char) (enumName : List Char) (t : ParseTree) : List Node :=
  match t.child? "body" with
  | some body =>
    let parts := body.parts.filter fun part => isComment part || part.kind == "enum_variant"
    arrange (parts.map fun part =>
      if isComment part then commentPiece source part
      else .element (variant? source enumName part).toList)
  | none => []

/-- The nodes of a member of a trait; functions without a body are abstract. -/
def traitMember (source : List Char) (item : Item) : List Node :=
  if item.tree.kind = "function_item" ∨ item.tree.kind = "function_signature_item" then
    ((function? source (some .pub) item).map (functionNode fun f =>
      if f.body.isNone then some .abstract else none)).toList
  else if item.tree.kind = "const_item" then (constant? source (some .pub) item).toList
  else []

/-- The nodes in the body of a trait. -/
def traitBody (source : List Char) (body : ParseTree) : List Node :=
  arrange (pieces source (traitMember source) (itemsOf source body.parts))

/-- The members of a trait. -/
def traitMembers (source : List Char) (t : ParseTree) : List Node :=
  match t.child? "body" with
  | some body => traitBody source body
  | none => []

/-- The nodes of a member of an `impl` block. Those of a trait are public and override. -/
def implMember (source : List Char) (ofTrait : Bool) (item : Item) : List Node :=
  let forced : Option Visibility := if ofTrait then some .pub else none
  if item.tree.kind = "function_item" then
    ((function? source forced item).map (functionNode fun _ =>
      if ofTrait then some .override else none)).toList
  else if item.tree.kind = "const_item" then (constant? source forced item).toList
  else if item.tree.kind = "type_item" then (typeAlias? source forced item.tree).toList
  else []

/-- The nodes in the body of an `impl` block. -/
def implBody (source : List Char) (ofTrait : Bool) (body : ParseTree) : List Node :=
  arrange (pieces source (implMember source ofTrait) (itemsOf source body.parts))

/-- The members of an `impl` block. -/
def implMembers (source : List Char) (ofTrait : Bool) (t : ParseTree) : List Node :=
  match t.child? "body" with
  | some body => implBody source ofTrait body
  | none => []

/-! ## Types -/

/-- What a type declaration says apart from its members. -/
def typeHead (source : List Char) (kind : TypeKind) (name : List Char) (item : Item) :
    TypeHead where
  kind := kind
  name := String.ofList name
  visibility := visibility source item.tree
  decorators := item.attributes
  typeParameters := typeParameters source item.tree
  location := item.tree.location source

/-- A struct or union with its fields. -/
def struct? (source : List Char) (item : Item) : Option (TypeHead × List Node) :=
  (item.tree.textOf? "name" source).map fun name =>
    (typeHead source .structType name item, structFields source item.tree)

/-- An enum with its members. -/
def enum? (source : List Char) (item : Item) : Option (TypeHead × List Node) :=
  (item.tree.textOf? "name" source).map fun name =>
    ({ typeHead source .enumType name item with
        underlying := item.attributes.findSome? representation? },
      variants source name item.tree)

/-- A trait with its members. -/
def trait? (source : List Char) (item : Item) : Option (TypeHead × List Node) :=
  (item.tree.textOf? "name" source).map fun name =>
    ({ typeHead source .interfaceType name item with bases := boundsOf source item.tree },
      traitMembers source item.tree)

/-! ## Implementations -/

/-- What all `impl` blocks for a type contribute, with the place and the parameters of the first. -/
structure ImplGroup where
  target : List Char
  location : Location
  typeParameters : List TypeParameter
  interfaces : List TypeExpr
  members : List Node

/-- The name of the type that an `impl` block is for. -/
def implTarget? (source : List Char) (t : ParseTree) : Option (List Char) :=
  (t.textOf? "type" source).map baseName

/-- What one `impl` block contributes. -/
def implGroup? (source : List Char) (t : ParseTree) : Option ImplGroup :=
  if t.kind = "impl_item" then
    (implTarget? source t).map fun target =>
      let implemented := typeOf? source t "trait"
      { target := target
        location := t.location source
        typeParameters := typeParameters source t
        interfaces := implemented.toList
        members := implMembers source implemented.isSome t }
  else none

/-- Adds a contribution to the group for its type, or as a new group at the end. -/
def addImpl (found : List ImplGroup) (new : ImplGroup) : List ImplGroup :=
  match found with
  | [] => [new]
  | group :: rest =>
    if group.target = new.target then
      { group with
        interfaces := group.interfaces ++ new.interfaces
        members := group.members ++ new.members } :: rest
    else group :: addImpl rest new

/-- The contributions of all `impl` blocks among some items, by type. -/
def implGroups (source : List Char) (parts : List ParseTree) : List ImplGroup :=
  (parts.filterMap (implGroup? source)).foldl addImpl []

/-- Whether an item declares a type that `impl` blocks can be merged into. -/
def declaresType (t : ParseTree) : Bool :=
  t.kind == "struct_item" || t.kind == "union_item" || t.kind == "enum_item"

/-- The names of the types that `impl` blocks can be merged into. -/
def localTypes (source : List Char) (parts : List ParseTree) : List (List Char) :=
  (parts.filter declaresType).filterMap fun part => part.textOf? "name" source

/-- The type whose group of `impl` blocks an item takes up, if no item before it has. -/
def claim? (source : List Char) (locals : List (List Char)) (t : ParseTree) :
    Option (List Char) :=
  if declaresType t then t.textOf? "name" source
  else if t.kind = "impl_item" then
    (implTarget? source t).filter fun target => !locals.contains target
  else none

/-- Hands each group to the first item that takes it up. -/
def assign (source : List Char) (locals : List (List Char)) :
    List ImplGroup → List Item → List (Item × Option ImplGroup)
  | _, [] => []
  | groups, item :: rest =>
    let taken := (claim? source locals item.tree).bind fun target =>
      groups.find? fun group => group.target == target
    match taken with
    | some group =>
      (item, some group) ::
        assign source locals (groups.filter fun other => other.target != group.target) rest
    | none => (item, none) :: assign source locals groups rest

theorem mem_of_mem_assign {source : List Char} {locals : List (List Char)}
    {groups : List ImplGroup} {items : List Item} {item : Item} {group : Option ImplGroup}
    (h : (item, group) ∈ assign source locals groups items) : item ∈ items := by
  induction items generalizing groups with
  | nil => simp [assign] at h
  | cons first rest ih =>
    unfold assign at h
    dsimp only at h
    split at h
    · rcases List.mem_cons.1 h with h | h
      · simp only [Prod.mk.injEq] at h
        simp [h.1]
      · exact List.mem_cons_of_mem _ (ih h)
    · rcases List.mem_cons.1 h with h | h
      · simp only [Prod.mk.injEq] at h
        simp [h.1]
      · exact List.mem_cons_of_mem _ (ih h)

/-- A type declaration with what the `impl` blocks for it add. -/
def merged (group : Option ImplGroup) (declared : TypeHead × List Node) : Node :=
  match group with
  | some group =>
    .branch
      (.type { declared.1 with interfaces := declared.1.interfaces ++ group.interfaces })
      (declared.2 ++ group.members)
  | none => .branch (.type declared.1) declared.2

/-- The class that stands for a type declared elsewhere. -/
def foreignType (group : ImplGroup) : Node :=
  .branch
    (.type
      { kind := .classType
        name := String.ofList group.target
        visibility := .pub
        typeParameters := group.typeParameters
        interfaces := group.interfaces
        location := group.location })
    group.members

/-! ## Items -/

/-- The import that a `use` declaration makes. -/
def useNode? (source : List Char) (t : ParseTree) : Option Node :=
  (t.textOf? "argument" source).map fun argument =>
    let (module, names) := useTree argument
    .leaf (.imported { module := module, names := names, location := t.location source })

/-- The import that an `extern crate` declaration makes. -/
def crateNode? (source : List Char) (t : ParseTree) : Option Node :=
  (t.textOf? "name" source).map fun name =>
    let names :=
      ((t.textOf? "alias" source).map fun other =>
        { name := String.ofList name, localName := some (String.ofList other) }).toList
    .leaf (.imported
      { module := String.ofList name, names := names, location := t.location source })

/-- The nodes of an item other than a module, with the `impl` blocks that it takes up. -/
def plainItem (source : List Char) (item : Item) (group : Option ImplGroup) : List Node :=
  let t := item.tree
  if t.kind = "use_declaration" then (useNode? source t).toList
  else if t.kind = "extern_crate_declaration" then (crateNode? source t).toList
  else if t.kind = "struct_item" ∨ t.kind = "union_item" then
    ((struct? source item).map (merged group)).toList
  else if t.kind = "enum_item" then ((enum? source item).map (merged group)).toList
  else if t.kind = "trait_item" then ((trait? source item).map (merged none)).toList
  else if t.kind = "impl_item" then (group.map foreignType).toList
  else if t.kind = "function_item" ∨ t.kind = "function_signature_item" then
    ((function? source none item).map (functionNode fun _ => none)).toList
  else if t.kind = "type_item" then (typeAlias? source none t).toList
  else if t.kind = "const_item" ∨ t.kind = "static_item" then (constant? source none item).toList
  else []

/-- The items that are the children of a node, each with the `impl` blocks that it takes up. -/
def assignedItems (source : List Char) (container : ParseTree) :
    List (Item × Option ImplGroup) :=
  assign source (localTypes source container.parts) (implGroups source container.parts)
    (itemsOf source container.parts)

theorem size_lt_of_mem_assignedItems {source : List Char} {container : ParseTree} {item : Item}
    {group : Option ImplGroup} (h : (item, group) ∈ assignedItems source container) :
    item.tree.size < container.size :=
  ParseTree.size_lt_of_mem_parts (mem_of_mem_withAttributes (mem_of_mem_assign h))

set_option linter.unusedVariables false in
/-- The nodes of the items that are the children of a node. A module with a body is a package; one
without is an import. -/
def items (source : List Char) (container : ParseTree) : List Node :=
  arrange ((assignedItems source container).attach.map fun ⟨(item, group), hitem⟩ =>
    let t := item.tree
    if isComment t then commentPiece source t
    else if t.kind = "mod_item" then
      .element ((t.textOf? "name" source).toList.map fun name =>
        match hbody : t.child? "body" with
        | some body =>
          .branch (.package ⟨String.ofList name, t.location source⟩) (items source body)
        | none =>
          .leaf (.imported
            { module := String.ofList name, kind := .namespaced, location := t.location source }))
    else .element (plainItem source item group))
termination_by container.size
decreasing_by
  exact Nat.lt_trans (ParseTree.size_lt_of_child? hbody) (size_lt_of_mem_assignedItems hitem)

/-- How the nodes of a container depend on its items. -/
theorem items_eq (source : List Char) (container : ParseTree) :
    items source container = arrange ((assignedItems source container).map fun (item, group) =>
      if isComment item.tree then commentPiece source item.tree
      else if item.tree.kind = "mod_item" then
        .element ((item.tree.textOf? "name" source).toList.map fun name =>
          match item.tree.child? "body" with
          | some body =>
            .branch (.package ⟨String.ofList name, item.tree.location source⟩) (items source body)
          | none =>
            .leaf (.imported
              { module := String.ofList name, kind := .namespaced,
                location := item.tree.location source }))
      else .element (plainItem source item group)) := by
  rw [items]
  conv => rhs; rw [← List.attach_map_subtype_val (assignedItems source container), List.map_map]
  congr 2
  funext ⟨⟨item, group⟩, hitem⟩
  dsimp only [Function.comp]
  split
  · rfl
  · split
    · congr 2
      funext name
      split
      · rename_i h
        rw [h]
      · rename_i h
        rw [h]
    · rfl

/-- The nodes of a source file. -/
def outline (source : List Char) (root : ParseTree) : List Node :=
  items source root

end Precis.Rust
