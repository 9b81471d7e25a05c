import Precis.Node.Decode
import Precis.Proofs.Json.Records

/-! # Declarations are rebuilt from their members

Each record is followed member by member, in the order in which its members are written. -/

namespace Precis

open Json

variable {depth : Nat}

/-! ## Names -/

theorem Visibility.restores (stage : Stage) :
    Restores depth (Visibility.decode stage depth) fun v => .str v.id :=
  restores_asChoice (fun v => by cases v <;> rfl) stage

theorem Language.restores (stage : Stage) :
    Restores depth (Language.decode stage depth) fun l => .str l.id :=
  restores_asChoice (fun l => by cases l <;> rfl) stage

theorem Modifier.restores (stage : Stage) :
    Restores depth (Modifier.decode stage depth) fun m => .str m.id :=
  restores_asChoice (fun m => by cases m <;> rfl) stage

theorem ImportKind.restores (stage : Stage) :
    Restores depth (ImportKind.decode stage depth) fun k => .str k.id :=
  restores_asChoice (fun k => by cases k <;> rfl) stage

theorem Severity.restores (stage : Stage) :
    Restores depth (Severity.decode stage depth) fun s => .str s.id :=
  restores_asChoice (fun s => by cases s <;> rfl) stage

theorem CommentFormat.restores (stage : Stage) :
    Restores depth (CommentFormat.decode stage depth) fun f => .str f.id :=
  restores_asChoice (fun f => by cases f <;> rfl) stage

theorem ModifierSet.restores (stage : Stage) :
    Restores depth (ModifierSet.decode stage depth) fun s => .arr s.encode := by
  intro s hwithin
  have hlist := restores_asList (fun d _ => Modifier.restores stage) s.toList hwithin
  simp only [ModifierSet.decode, ModifierSet.encode, hlist, Except.map, ofList_toList]

theorem ModifierSet.eq_empty_of_encode {s : ModifierSet} (h : s.encode = []) : s = {} := by
  rw [← ofList_toList s, List.map_eq_nil_iff.mp h]
  rfl

/-! ## Parts of declarations -/

theorem Location.restores : Restores depth (Location.decode depth) Location.encode :=
  Record.restores_decoder fun _ l =>
    (Record.rebuilds_pure Location.mk)
      |>.required (by simp) restores_asIndex l.startLine
      |>.required (by simp) restores_asIndex l.startColumn
      |>.required (by simp) restores_asIndex l.endLine
      |>.required (by simp) restores_asIndex l.endColumn
      |>.required (by simp) restores_asIndex l.startByte
      |>.required (by simp) restores_asIndex l.endByte

theorem TypeExpr.encodeAll_eq (ts : List TypeExpr) : encodeAll ts = ts.map encode := by
  induction ts with
  | nil => rfl
  | cons t ts ih => rw [encodeAll, ih, List.map_cons]

theorem TypeExpr.encode_eq (t : TypeExpr) :
    t.encode = .obj (("name", .str t.name) :: listMember "args" (t.args.map encode) ++
      flagMember "nullable" t.nullable) := by
  rw [← encodeAll_eq]
  cases t
  rfl

theorem TypeExpr.encode_ne_null (t : TypeExpr) : t.encode.reading ≠ .null := by
  rw [encode_eq]
  nofun

theorem TypeExpr.decode_eq (item : Reading) :
    decode (depth + 1) item = (record (asList decode depth) depth).decode item := by
  cases depth <;> rfl

theorem TypeExpr.restores : Restores depth (decode depth) encode := by
  intro t hwithin
  induction depth using Nat.strongRecOn generalizing t with
  | ind depth ih =>
      rw [encode_eq] at hwithin ⊢
      cases depth with
      | zero => exact absurd (within_obj.mp hwithin).1 (Nat.lt_irrefl 0)
      | succ d =>
          have hargs : Restores d (asList decode d) fun ts => .arr (ts.map encode) :=
            restores_asList fun d' hd' t => ih d' (by omega) t
          obtain ⟨name, args, nullable⟩ := t
          rw [decode_eq]
          refine Record.Rebuilds.decode_eq ?_ hwithin
          exact (Record.rebuilds_pure TypeExpr.mk)
            |>.required (by simp) restores_asText name
            |>.list (by simp) hargs args
            |>.flag (by simp) nullable

theorem TypeExpr.restores_list :
    Restores depth (asList decode depth) fun ts => .arr (ts.map encode) :=
  restores_asList fun _ _ => restores

theorem TypeParameter.restores :
    Restores depth (TypeParameter.decode depth) TypeParameter.encode := by
  refine Record.restores_decoder fun d p => ?_
  rw [TypeExpr.encodeAll_eq]
  exact (Record.rebuilds_pure TypeParameter.mk)
    |>.required (by simp) restores_asText p.name
    |>.list (by simp) TypeExpr.restores_list p.bounds
    |>.nullable (by simp) TypeExpr.restores TypeExpr.encode_ne_null p.default

theorem TypeParameter.restores_list :
    Restores depth (asList TypeParameter.decode depth) fun ps =>
      .arr (ps.map TypeParameter.encode) :=
  restores_asList fun _ _ => TypeParameter.restores

theorem Parameter.restores : Restores depth (Parameter.decode depth) Parameter.encode :=
  Record.restores_decoder fun _ p =>
    (Record.rebuilds_pure Parameter.mk)
      |>.required (by simp) restores_asText p.name
      |>.nullable (by simp) TypeExpr.restores TypeExpr.encode_ne_null p.type
      |>.nullable (by simp) restores_asText nofun p.default
      |>.flag (by simp) p.optional
      |>.flag (by simp) p.variadic

theorem ImportedName.restores : Restores depth (ImportedName.decode depth) ImportedName.encode :=
  Record.restores_decoder fun _ n =>
    (Record.rebuilds_pure ImportedName.mk)
      |>.required (by simp) restores_asText n.name
      |>.nullable (by simp) restores_asText nofun n.localName

theorem Comment.rebuilds (stage : Stage) (c : Comment) :
    (Comment.record stage depth).Rebuilds depth c.members c :=
  (Record.rebuilds_pure Comment.mk)
    |>.required (by simp) restores_asText c.text
    |>.required (by simp) (CommentFormat.restores stage) c.format
    |>.required (by simp) Location.restores c.location

theorem Comment.restores (stage : Stage) :
    Restores depth (Comment.decode stage depth) Comment.encode :=
  Record.restores_decoder fun _ c => Comment.rebuilds stage c

/-! ## Nodes -/

theorem Import.rebuilds (i : Import) : (Import.record depth).Rebuilds depth i.members i :=
  (Record.rebuilds_pure Import.mk)
    |>.required (by simp) restores_asText i.module
    |>.given (by simp) (ImportKind.restores .kept) i.kind
    |>.list (by simp) (restores_asList fun _ _ => ImportedName.restores) i.names
    |>.required (by simp) Location.restores i.location

theorem Function.rebuilds (f : Function) :
    (Function.record depth).Rebuilds depth f.members f := by
  rw [Function.members, TypeExpr.encodeAll_eq]
  exact (Record.rebuilds_pure Function.mk)
    |>.required (by simp) restores_asText f.name
    |>.required (by simp) (Visibility.restores .kept) f.visibility
    |>.listed (by simp) (ModifierSet.restores .kept) ModifierSet.eq_empty_of_encode
    |>.list (by simp) (restores_asList fun _ _ => restores_asText) f.decorators
    |>.list (by simp) TypeParameter.restores_list f.typeParameters
    |>.given (by simp) (restores_asList fun _ _ => Parameter.restores) f.parameters
    |>.nullable (by simp) TypeExpr.restores TypeExpr.encode_ne_null f.result
    |>.list (by simp) TypeExpr.restores_list f.throws
    |>.nullable (by simp) restores_asText nofun f.body
    |>.optional (by simp) (Comment.restores .kept) nofun f.doc
    |>.required (by simp) Location.restores f.location

theorem Field.rebuilds (f : Field) : (Field.record depth).Rebuilds depth f.members f :=
  (Record.rebuilds_pure Field.mk)
    |>.required (by simp) restores_asText f.name
    |>.required (by simp) (Visibility.restores .kept) f.visibility
    |>.listed (by simp) (ModifierSet.restores .kept) ModifierSet.eq_empty_of_encode
    |>.list (by simp) (restores_asList fun _ _ => restores_asText) f.decorators
    |>.nullable (by simp) TypeExpr.restores TypeExpr.encode_ne_null f.type
    |>.nullable (by simp) restores_asText nofun f.value
    |>.flag (by simp) f.enumMember
    |>.optional (by simp) (Comment.restores .kept) nofun f.doc
    |>.required (by simp) Location.restores f.location

theorem TypeAlias.rebuilds (a : TypeAlias) :
    (TypeAlias.record depth).Rebuilds depth a.members a :=
  (Record.rebuilds_pure TypeAlias.mk)
    |>.required (by simp) restores_asText a.name
    |>.required (by simp) (Visibility.restores .kept) a.visibility
    |>.list (by simp) TypeParameter.restores_list a.typeParameters
    |>.required (by simp) TypeExpr.restores a.target
    |>.optional (by simp) (Comment.restores .kept) nofun a.doc
    |>.required (by simp) Location.restores a.location

theorem Problem.rebuilds (p : Problem) : (Problem.record depth).Rebuilds depth p.members p :=
  (Record.rebuilds_pure Problem.mk)
    |>.required (by simp) restores_asText p.message
    |>.required (by simp) (Severity.restores .kept) p.severity
    |>.nullable (by simp) restores_asText nofun p.code
    |>.required (by simp) Location.restores p.location

section Branches

variable {children : Reading → Except Fault (List Node)}
  (hchildren : Restores depth children fun nodes => .arr (nodes.map Node.encode))

include hchildren

theorem FileHead.rebuilds (stage : Stage) (h : FileHead) (nodes : List Node) :
    (FileHead.record children depth stage).Rebuilds depth
      (h.members ++ childrenMember (nodes.map Node.encode)) (h, nodes) :=
  (Record.rebuilds_pure _)
    |>.required (by simp) restores_asText h.path
    |>.required (by simp) (Language.restores stage) h.language
    |>.required (by simp) Location.restores h.location
    |>.list (by simp) hchildren nodes

theorem PackageHead.rebuilds (h : PackageHead) (nodes : List Node) :
    (PackageHead.record children depth).Rebuilds depth
      (h.members ++ childrenMember (nodes.map Node.encode)) (h, nodes) :=
  (Record.rebuilds_pure _)
    |>.required (by simp) restores_asText h.name
    |>.required (by simp) Location.restores h.location
    |>.list (by simp) hchildren nodes

theorem TypeHead.rebuilds (h : TypeHead) (nodes : List Node) :
    (TypeHead.record children depth h.kind).Rebuilds depth
      (h.members ++ childrenMember (nodes.map Node.encode)) (h, nodes) := by
  rw [TypeHead.members, TypeExpr.encodeAll_eq, TypeExpr.encodeAll_eq]
  exact (Record.rebuilds_pure _)
    |>.required (by simp) restores_asText h.name
    |>.required (by simp) (Visibility.restores .kept) h.visibility
    |>.listed (by simp) (ModifierSet.restores .kept) ModifierSet.eq_empty_of_encode
    |>.list (by simp) (restores_asList fun _ _ => restores_asText) h.decorators
    |>.list (by simp) TypeParameter.restores_list h.typeParameters
    |>.list (by simp) TypeExpr.restores_list h.bases
    |>.list (by simp) TypeExpr.restores_list h.interfaces
    |>.nullable (by simp) TypeExpr.restores TypeExpr.encode_ne_null h.underlying
    |>.optional (by simp) (Comment.restores .kept) nofun h.doc
    |>.required (by simp) Location.restores h.location
    |>.list (by simp) hchildren nodes

end Branches

end Precis
