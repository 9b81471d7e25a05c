import Precis.Json.Decode
import Precis.Node.Encode

/-!
# Outlines from JSON

A node is an object with a member `kind`, which may stand anywhere in it, or an array that starts
with the kind. Since the kind may come last, the other members are first kept for later: what
cannot be kept is a fault, and so is everything about the kind. Only then are the members of the
node interpreted, in reading order, and all names among them are decoded as kept values. The kind
is given by name; below another node it may also be given by its position in the list of all kinds.
-/

namespace Precis

open Json

/-! ## Names -/

/-- The choices between the values of a list, by name. -/
def choicesOf {α : Type} (id : α → String) (all : List α) : List (String × α) :=
  all.map fun a => (id a, a)

section Names

variable (stage : Stage)

def Language.decode : Decoder Language := asChoice (choicesOf Language.id Language.all) stage
def Visibility.decode : Decoder Visibility :=
  asChoice (choicesOf Visibility.id Visibility.all) stage
def Modifier.decode : Decoder Modifier := asChoice (choicesOf Modifier.id Modifier.all) stage
def ImportKind.decode : Decoder ImportKind :=
  asChoice (choicesOf ImportKind.id ImportKind.all) stage
def Severity.decode : Decoder Severity := asChoice (choicesOf Severity.id Severity.all) stage
def NodeKind.decode : Decoder NodeKind := asChoice (choicesOf NodeKind.id NodeKind.all) stage
def CommentFormat.decode : Decoder CommentFormat :=
  asChoice (choicesOf CommentFormat.id CommentFormat.all) stage

/-- A list of modifiers, in any order and with repetitions. -/
def ModifierSet.decode : Decoder ModifierSet := fun depth item =>
  (asList (Modifier.decode stage) depth item).map ModifierSet.ofList

end Names

/-! ## Parts of declarations -/

def Location.record (depth : Nat) : Record Location :=
  (Record.pure Location.mk)
    |>.required "start_line" (asIndex depth)
    |>.required "start_column" (asIndex depth)
    |>.required "end_line" (asIndex depth)
    |>.required "end_column" (asIndex depth)
    |>.required "start_byte" (asIndex depth)
    |>.required "end_byte" (asIndex depth)

def Location.decode : Decoder Location := Record.decoder Location.record

/-- The members of a type expression, whose arguments are decoded by `args`. -/
def TypeExpr.record (args : Reading → Except Fault (List TypeExpr)) (depth : Nat) :
    Record TypeExpr :=
  (Record.pure TypeExpr.mk)
    |>.required "name" (asText depth)
    |>.defaulted "args" [] args
    |>.defaulted "nullable" false (asFlag depth)

/-- A type expression. Its arguments nest two levels deeper, once for the list and once for each of
them. -/
def TypeExpr.decode : Decoder TypeExpr
  | 0, _ => .error .malformed
  | 1, item => (TypeExpr.record (fun _ => .error .malformed) 0).decode item
  | depth + 2, item =>
    (TypeExpr.record (arrayOf (TypeExpr.decode depth)) (depth + 1)).decode item

def TypeParameter.record (depth : Nat) : Record TypeParameter :=
  (Record.pure TypeParameter.mk)
    |>.required "name" (asText depth)
    |>.defaulted "bounds" [] (asList TypeExpr.decode depth)
    |>.nullable "default" TypeExpr.decode depth

def TypeParameter.decode : Decoder TypeParameter := Record.decoder TypeParameter.record

def Parameter.record (depth : Nat) : Record Parameter :=
  (Record.pure Parameter.mk)
    |>.required "name" (asText depth)
    |>.nullable "type" TypeExpr.decode depth
    |>.nullable "default_value" asText depth
    |>.defaulted "optional" false (asFlag depth)
    |>.defaulted "variadic" false (asFlag depth)

def Parameter.decode : Decoder Parameter := Record.decoder Parameter.record

def ImportedName.record (depth : Nat) : Record ImportedName :=
  (Record.pure ImportedName.mk)
    |>.required "name" (asText depth)
    |>.nullable "alias" asText depth

def ImportedName.decode : Decoder ImportedName := Record.decoder ImportedName.record

def Comment.record (stage : Stage) (depth : Nat) : Record Comment :=
  (Record.pure Comment.mk)
    |>.required "text" (asText depth)
    |>.required "format" (CommentFormat.decode stage depth)
    |>.required "location" (Location.decode depth)

def Comment.decode (stage : Stage) : Decoder Comment := Record.decoder (Comment.record stage)

/-! ## Nodes -/

section Nodes

variable (children : Reading → Except Fault (List Node)) (depth : Nat)

def FileHead.record (stage : Stage) : Record (FileHead × List Node) :=
  (Record.pure fun path language location nodes => (FileHead.mk path language location, nodes))
    |>.required "path" (asText depth)
    |>.required "language" (Language.decode stage depth)
    |>.required "location" (Location.decode depth)
    |>.defaulted "children" [] children

def PackageHead.record : Record (PackageHead × List Node) :=
  (Record.pure fun name location nodes => (PackageHead.mk name location, nodes))
    |>.required "name" (asText depth)
    |>.required "location" (Location.decode depth)
    |>.defaulted "children" [] children

def TypeHead.record (kind : TypeKind) : Record (TypeHead × List Node) :=
  (Record.pure fun name visibility modifiers decorators typeParameters bases interfaces underlying
      doc location nodes =>
    (TypeHead.mk kind name visibility modifiers decorators typeParameters bases interfaces
      underlying doc location, nodes))
    |>.required "name" (asText depth)
    |>.required "visibility" (Visibility.decode .kept depth)
    |>.defaulted "modifiers" {} (ModifierSet.decode .kept depth)
    |>.defaulted "decorators" [] (asList asText depth)
    |>.defaulted "type_params" [] (asList TypeParameter.decode depth)
    |>.defaulted "extends" [] (asList TypeExpr.decode depth)
    |>.defaulted "implements" [] (asList TypeExpr.decode depth)
    |>.nullable "underlying" TypeExpr.decode depth
    |>.defaulted "doc" none (asOption (Comment.decode .kept) depth)
    |>.required "location" (Location.decode depth)
    |>.defaulted "children" [] children

def Import.record : Record Import :=
  (Record.pure Import.mk)
    |>.required "module" (asText depth)
    |>.defaulted "import_kind" .plain (ImportKind.decode .kept depth)
    |>.defaulted "symbols" [] (asList ImportedName.decode depth)
    |>.required "location" (Location.decode depth)

def Function.record : Record Function :=
  (Record.pure Function.mk)
    |>.required "name" (asText depth)
    |>.required "visibility" (Visibility.decode .kept depth)
    |>.defaulted "modifiers" {} (ModifierSet.decode .kept depth)
    |>.defaulted "decorators" [] (asList asText depth)
    |>.defaulted "type_params" [] (asList TypeParameter.decode depth)
    |>.defaulted "parameters" [] (asList Parameter.decode depth)
    |>.nullable "return_type" TypeExpr.decode depth
    |>.defaulted "throws" [] (asList TypeExpr.decode depth)
    |>.nullable "implementation" asText depth
    |>.defaulted "doc" none (asOption (Comment.decode .kept) depth)
    |>.required "location" (Location.decode depth)

def Field.record : Record Field :=
  (Record.pure Field.mk)
    |>.required "name" (asText depth)
    |>.required "visibility" (Visibility.decode .kept depth)
    |>.defaulted "modifiers" {} (ModifierSet.decode .kept depth)
    |>.defaulted "decorators" [] (asList asText depth)
    |>.nullable "type" TypeExpr.decode depth
    |>.nullable "default_value" asText depth
    |>.defaulted "enum_member" false (asFlag depth)
    |>.defaulted "doc" none (asOption (Comment.decode .kept) depth)
    |>.required "location" (Location.decode depth)

def TypeAlias.record : Record TypeAlias :=
  (Record.pure TypeAlias.mk)
    |>.required "name" (asText depth)
    |>.required "visibility" (Visibility.decode .kept depth)
    |>.defaulted "type_params" [] (asList TypeParameter.decode depth)
    |>.required "aliased" (TypeExpr.decode depth)
    |>.defaulted "doc" none (asOption (Comment.decode .kept) depth)
    |>.required "location" (Location.decode depth)

def Problem.record : Record Problem :=
  (Record.pure Problem.mk)
    |>.required "message" (asText depth)
    |>.required "severity" (Severity.decode .kept depth)
    |>.nullable "code" asText depth
    |>.required "location" (Location.decode depth)

/-- The record of a node of a kind. -/
def Node.record : NodeKind → Record Node
  | .file => (Record.pure fun (head, nodes) => .branch (.file head) nodes).seq
      (FileHead.record children depth .kept)
  | .package => (Record.pure fun (head, nodes) => .branch (.package head) nodes).seq
      (PackageHead.record children depth)
  | .type kind => (Record.pure fun (head, nodes) => .branch (.type head) nodes).seq
      (TypeHead.record children depth kind)
  | .imported => (Record.pure fun item => .leaf (.imported item)).seq (Import.record depth)
  | .function => (Record.pure fun item => .leaf (.function item)).seq (Function.record depth)
  | .field => (Record.pure fun item => .leaf (.field item)).seq (Field.record depth)
  | .typeAlias => (Record.pure fun item => .leaf (.typeAlias item)).seq (TypeAlias.record depth)
  | .comment => (Record.pure fun item => .leaf (.comment item)).seq (Comment.record .kept depth)
  | .problem => (Record.pure fun item => .leaf (.problem item)).seq (Problem.record depth)

end Nodes

namespace Node

/-- The kind of a node by its name. -/
def kindByName : Reading → Except Fault NodeKind
  | .str (some name) => chosen (choicesOf NodeKind.id NodeKind.all) name
  | _ => .error .malformed

/-- The kind of a node by its name, or by its position among all kinds. -/
def kindByPosition : Reading → Except Fault NodeKind
  | .num n =>
    match n.toIndex?.bind fun i => NodeKind.all[i]? with
    | some kind => .ok kind
    | none => .error .malformed
  | item => kindByName item

/-- Sets the kind of a node, which is decoded by `kindOf`, apart from its other members, in reading
order. -/
def splitKind (kindOf : Reading → Except Fault NodeKind) (depth : Nat) :
    Option NodeKind → List (Option String × Reading) →
      Except Fault (Option NodeKind × List (Option String × Reading))
  | kind, [] => .ok (kind, [])
  | _, (none, _) :: _ => .error .malformed
  | kind, (some key, item) :: rest =>
    if key = "kind" then
      match kind with
      | some _ => .error (.duplicate "kind")
      | none =>
        match kindOf item with
        | .ok found => splitKind kindOf depth (some found) rest
        | .error fault => .error fault
    else if item.storable depth then
      (splitKind kindOf depth kind rest).map fun (found, others) =>
        (found, (some key, item) :: others)
    else .error .malformed

/-- Decodes a node whose members may nest `depth` levels, whose kind is decoded by `kindOf` and
whose children by `children`. -/
def decodeWith (kindOf : Reading → Except Fault NodeKind)
    (children : Reading → Except Fault (List Node)) (depth : Nat) : Reading → Except Fault Node
  | .obj members closed => do
    let (kind, others) ← splitKind kindOf depth none members
    if closed then
      match kind with
      | some kind => (record children depth kind).ofMembers others
      | none => .error (.missing "kind")
    else .error .malformed
  | .arr [] closed => if closed then .error (.missing "kind") else .error .malformed
  | .arr (first :: rest) closed => do
    let kind ← kindOf first
    if storableItems depth rest && closed then (record children depth kind).ofArray rest true
    else .error .malformed
  | _ => .error .malformed

/-- A node below another one. Its children nest two levels deeper, once for the list and once for
each of them. -/
def decodeInner : Decoder Node
  | 0, _ => .error .malformed
  | 1, item => decodeWith kindByPosition (fun _ => .error .malformed) 0 item
  | depth + 2, item => decodeWith kindByPosition (arrayOf (decodeInner depth)) (depth + 1) item

/-- A node that is not below another one. -/
def decode : Decoder Node
  | 0, _ => .error .malformed
  | depth + 1, item => decodeWith kindByName (asList decodeInner depth) depth item

end Node

/-- An outline. -/
def Outline.decode : Decoder Outline
  | 0, _ => .error .malformed
  | depth + 1, item =>
    ((Record.pure fun (head, nodes) => Outline.mk head nodes).seq
      (FileHead.record (asList Node.decode depth) depth .streamed)).decode item

end Precis
