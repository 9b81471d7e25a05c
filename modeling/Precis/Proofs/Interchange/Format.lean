import Precis.Node.Decode
import Precis.Proofs.Json.Restoring
import Mathlib.Data.List.Perm.Basic

/-! # The format of outlines

Which members each record declares, in order, and what stands in them. A value can be altered
without a change of meaning: the members of any object may change places, at any depth, and a record
may get members that it does not declare. -/

namespace Precis

open Json

/-! ## Records and what they hold -/

/-- The records of the format. -/
inductive Schema where
  | location
  | typeExpr
  | typeParameter
  | parameter
  | importedName
  | comment
  | file
  | package
  | declaration
  | imported
  | function
  | field
  | typeAlias
  | problem

/-- What a value is read as. -/
inductive Shape where
  /-- A value that holds no record. -/
  | plain
  /-- A list whose elements are all of one shape. -/
  | list (element : Shape)
  /-- A record. -/
  | record (schema : Schema)
  /-- A record of the kind that it names. -/
  | node

/-- The members that a record declares, in order. -/
def Schema.members : Schema → List (String × Shape)
  | location =>
    [("start_line", .plain), ("start_column", .plain), ("end_line", .plain),
     ("end_column", .plain), ("start_byte", .plain), ("end_byte", .plain)]
  | typeExpr =>
    [("name", .plain), ("args", .list (.record typeExpr)), ("nullable", .plain)]
  | typeParameter =>
    [("name", .plain), ("bounds", .list (.record typeExpr)), ("default", .record typeExpr)]
  | parameter =>
    [("name", .plain), ("type", .record typeExpr), ("default_value", .plain),
     ("optional", .plain), ("variadic", .plain)]
  | importedName => [("name", .plain), ("alias", .plain)]
  | comment => [("text", .plain), ("format", .plain), ("location", .record location)]
  | file =>
    [("path", .plain), ("language", .plain), ("location", .record location),
     ("children", .list .node)]
  | package => [("name", .plain), ("location", .record location), ("children", .list .node)]
  | declaration =>
    [("name", .plain), ("visibility", .plain), ("modifiers", .list .plain),
     ("decorators", .list .plain), ("type_params", .list (.record typeParameter)),
     ("extends", .list (.record typeExpr)), ("implements", .list (.record typeExpr)),
     ("underlying", .record typeExpr), ("doc", .record comment), ("location", .record location),
     ("children", .list .node)]
  | imported =>
    [("module", .plain), ("import_kind", .plain), ("symbols", .list (.record importedName)),
     ("location", .record location)]
  | function =>
    [("name", .plain), ("visibility", .plain), ("modifiers", .list .plain),
     ("decorators", .list .plain), ("type_params", .list (.record typeParameter)),
     ("parameters", .list (.record parameter)), ("return_type", .record typeExpr),
     ("throws", .list (.record typeExpr)), ("implementation", .plain), ("doc", .record comment),
     ("location", .record location)]
  | field =>
    [("name", .plain), ("visibility", .plain), ("modifiers", .list .plain),
     ("decorators", .list .plain), ("type", .record typeExpr), ("default_value", .plain),
     ("enum_member", .plain), ("doc", .record comment), ("location", .record location)]
  | typeAlias =>
    [("name", .plain), ("visibility", .plain), ("type_params", .list (.record typeParameter)),
     ("aliased", .record typeExpr), ("doc", .record comment), ("location", .record location)]
  | problem =>
    [("message", .plain), ("severity", .plain), ("code", .plain), ("location", .record location)]

/-- The record that a node of a kind is. -/
def NodeKind.schema : NodeKind → Schema
  | file => .file
  | package => .package
  | imported => .imported
  | type _ => .declaration
  | function => .function
  | field => .field
  | typeAlias => .typeAlias
  | comment => .comment
  | problem => .problem

/-- The kind that a node names: in a member of an object, or at the front of an array. -/
def Node.kindOf? : Reading → Option NodeKind
  | .obj members _ => (members.lookup (some "kind")).bind fun item =>
    (kindByPosition item).toOption
  | .arr (first :: _) _ => (kindByPosition first).toOption
  | _ => none

namespace Shape

/-- The members that a value of the shape declares, if it is a record. A node declares its kind
before everything else. -/
def fields? : Shape → Reading → Option (List (String × Shape))
  | record schema, _ => some schema.members
  | node, item => (Node.kindOf? item).map fun kind => ("kind", plain) :: kind.schema.members
  | plain, _ | list _, _ => none

/-- The shape of a member among the declared ones; there is no record in one that is not
declared. -/
def amongFields (fields : List (String × Shape)) (key : Option String) : Shape :=
  (key.bind fun name => fields.lookup name).getD plain

/-- The shape of an element that stands for the declared member at that position. -/
def atPosition (fields : List (String × Shape)) (i : Nat) : Shape :=
  (fields.map Prod.snd)[i]?.getD plain

/-- The shape of a member of an object. -/
def ofMember (shape : Shape) (item : Reading) (key : Option String) : Shape :=
  match shape.fields? item with
  | some fields => amongFields fields key
  | none => plain

/-- The shape of an element of an array. -/
def ofElement (shape : Shape) (item : Reading) (i : Nat) : Shape :=
  match shape with
  | list element => element
  | _ =>
    match shape.fields? item with
    | some fields => atPosition fields i
    | none => plain

theorem lookup_eq_none {fields : List (String × Shape)} {name : String} :
    fields.lookup name = none ↔ name ∉ fields.map Prod.fst := by
  simp only [List.lookup_eq_none_iff, bne_iff_ne, List.mem_map, not_exists, not_and]
  exact forall₂_congr fun _ _ => ne_comm

theorem amongFields_append_of_mem {fields fields' : List (String × Shape)} {name : String}
    (h : name ∈ fields.map Prod.fst) :
    amongFields (fields ++ fields') (some name) = amongFields fields (some name) := by
  obtain ⟨found, hfound⟩ := Option.ne_none_iff_exists'.mp (mt lookup_eq_none.mp (not_not.mpr h))
  simp [amongFields, List.lookup_append, hfound]

theorem amongFields_append_of_not_mem {fields fields' : List (String × Shape)} {name : String}
    (h : name ∉ fields.map Prod.fst) :
    amongFields (fields ++ fields') (some name) = amongFields fields' (some name) := by
  simp [amongFields, List.lookup_append, lookup_eq_none.mpr h]

theorem ofMember_node {item : Reading} {kind : NodeKind} (h : Node.kindOf? item = some kind)
    {name : String} (hname : name ≠ "kind") :
    node.ofMember item (some name) = amongFields kind.schema.members (some name) := by
  have hbeq : (name == "kind") = false := beq_false_of_ne hname
  simp [ofMember, fields?, h, amongFields, List.lookup_cons, hbeq]

theorem ofElement_node {item : Reading} {kind : NodeKind} (h : Node.kindOf? item = some kind)
    (i : Nat) : node.ofElement item (i + 1) = atPosition kind.schema.members i := by
  simp [ofElement, fields?, h, atPosition]

end Shape

/-! ## Alterations -/

/-- A string, a flag or `null`. -/
inductive IsRemark : Reading → Prop where
  | null : IsRemark .null
  | bool (b : Bool) : IsRemark (.bool b)
  | str (s : String) : IsRemark (.str (some s))

/-- One alteration of a value of some shape, at any depth: the members of an object change places,
or a record gets a member that it does not declare. -/
inductive Alters : Shape → Reading → Reading → Prop where
  | permute {shape : Shape} {members members' : List (Option String × Reading)} {closed : Bool}
      (h : members.Perm members') : Alters shape (.obj members closed) (.obj members' closed)
  | insert {shape : Shape} {fields : List (String × Shape)} {key : String} {item : Reading}
      {members : List (Option String × Reading)} {closed : Bool}
      (hfields : shape.fields? (.obj members closed) = some fields)
      (hkey : key ∉ fields.map Prod.fst) (hitem : IsRemark item) :
      Alters shape (.obj members closed) (.obj ((some key, item) :: members) closed)
  | member {shape : Shape} {key : Option String} {item item' : Reading}
      {before after : List (Option String × Reading)} {closed : Bool}
      (h : Alters (shape.ofMember (.obj (before ++ (key, item) :: after) closed) key) item item') :
      Alters shape (.obj (before ++ (key, item) :: after) closed)
        (.obj (before ++ (key, item') :: after) closed)
  | element {shape : Shape} {item item' : Reading} {before after : List Reading} {closed : Bool}
      (h : Alters (shape.ofElement (.arr (before ++ item :: after) closed) before.length)
        item item') :
      Alters shape (.arr (before ++ item :: after) closed)
        (.arr (before ++ item' :: after) closed)

/-! ## What alterations keep -/

theorem IsRemark.whole {item : Reading} (h : IsRemark item) : item.whole = true := by
  cases h <;> rfl

theorem IsRemark.storable {item : Reading} (h : IsRemark item) (depth : Nat) :
    item.storable depth = true := by
  cases h <;> rfl

/-- An altered value is still read to its end. -/
theorem Alters.whole {shape : Shape} {item item' : Reading} (h : Alters shape item item')
    (hitem : item.whole = true) : item'.whole = true := by
  induction h with
  | permute h =>
      simp only [Reading.whole, Bool.and_eq_true, wholeMembers_eq_true] at hitem ⊢
      simpa [h.mem_iff] using hitem
  | insert hfields hkey hinserted =>
      simp only [Reading.whole, Bool.and_eq_true, wholeMembers_eq_true] at hitem ⊢
      exact ⟨List.forall_mem_cons.mpr ⟨hinserted.whole, hitem.1⟩, hitem.2⟩
  | member _ ih =>
      simp only [Reading.whole, Bool.and_eq_true, wholeMembers_eq_true, List.forall_mem_append,
        List.forall_mem_cons] at hitem ⊢
      exact ⟨⟨hitem.1.1, ih hitem.1.2.1, hitem.1.2.2⟩, hitem.2⟩
  | element _ ih =>
      simp only [Reading.whole, Bool.and_eq_true, wholeItems_eq_true, List.forall_mem_append,
        List.forall_mem_cons] at hitem ⊢
      exact ⟨⟨hitem.1.1, ih hitem.1.2.1, hitem.1.2.2⟩, hitem.2⟩

/-- An altered value can still be kept for later. -/
theorem Alters.storable {shape : Shape} {item item' : Reading} (h : Alters shape item item')
    {depth : Nat} (hitem : item.storable depth = true) : item'.storable depth = true := by
  induction h generalizing depth with
  | permute h =>
      simp only [Reading.storable, Bool.and_eq_true, storableMembers_eq_true] at hitem ⊢
      simpa [h.mem_iff] using hitem
  | insert hfields hkey hinserted =>
      simp only [Reading.storable, Bool.and_eq_true, storableMembers_eq_true] at hitem ⊢
      exact ⟨⟨hitem.1.1, List.forall_mem_cons.mpr ⟨⟨rfl, hinserted.storable _⟩, hitem.1.2⟩⟩,
        hitem.2⟩
  | member _ ih =>
      simp only [Reading.storable, Bool.and_eq_true, storableMembers_eq_true,
        List.forall_mem_append, List.forall_mem_cons] at hitem ⊢
      obtain ⟨⟨hdepth, hbefore, ⟨hkey, haltered⟩, hafter⟩, hclosed⟩ := hitem
      exact ⟨⟨hdepth, hbefore, ⟨hkey, ih haltered⟩, hafter⟩, hclosed⟩
  | element _ ih =>
      simp only [Reading.storable, Bool.and_eq_true, storableItems_eq_true,
        List.forall_mem_append, List.forall_mem_cons] at hitem ⊢
      obtain ⟨⟨hdepth, hbefore, haltered, hafter⟩, hclosed⟩ := hitem
      exact ⟨⟨hdepth, hbefore, ih haltered, hafter⟩, hclosed⟩

end Precis
