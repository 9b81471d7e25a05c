import Precis.Proofs.Interchange.RoundTrip
import Precis.Proofs.Json.Bounding

/-! # Every accepted text has a canonical form

A record may be given as an array, members may be left out, be `null` or be unknown, and modifiers
may be repeated. Whatever the form, the outline that is read is written with no more nesting than
the decoder allows, so that its compact form is accepted in turn. -/

namespace Precis

open Json

variable {depth : Nat}

/-! ## Parts of declarations -/

theorem Location.bounded : Bounds depth (Location.decode depth) Location.encode := by
  refine Record.bounds_decoder fun d => ?_
  refine (Record.grants_pure ?_)
    |>.required bounds_asIndex
    |>.required bounds_asIndex
    |>.required bounds_asIndex
    |>.required bounds_asIndex
    |>.required bounds_asIndex
    |>.required bounds_asIndex
  intro _ hstartLine _ hstartColumn _ hendLine _ hendColumn _ hstartByte _ hendByte
  simp [hstartLine, hstartColumn, hendLine, hendColumn, hstartByte, hendByte]

theorem ModifierSet.bounded (stage : Stage) :
    Bounds depth (ModifierSet.decode stage depth) fun s => .arr s.encode := by
  intro item s h
  cases depth with
  | zero => cases h
  | succ d => exact within_arr.mpr ⟨d.succ_pos, by simp [encode]⟩

theorem TypeExpr.grants {args : Reading → Except Fault (List TypeExpr)}
    (hargs : Bounds depth args fun ts => .arr (ts.map encode)) :
    (record args depth).Grants fun t => t.encode.Within (depth + 1) := by
  refine (Record.grants_pure ?_)
    |>.plain
    |>.list hargs
    |>.plain
  intro name args hargs nullable
  rw [encode_eq]
  exact MembersWithin.obj (by simp [hargs])

theorem TypeExpr.bounded : Bounds depth (decode depth) encode := by
  -- An argument is two levels below its type: one for the type, one for the list.
  induction depth using Nat.strongRecOn with
  | ind depth ih =>
      intro item t h
      cases depth with
      | zero => cases h
      | succ d =>
          have hargs : Bounds d (asList decode d) fun ts => .arr (ts.map encode) :=
            bounds_asList fun d' hd' => ih d' (by omega)
          rw [decode_eq] at h
          exact (grants hargs).decode h

theorem TypeExpr.bounded_list :
    Bounds depth (asList decode depth) fun ts => .arr (ts.map encode) :=
  bounds_asList fun _ _ => bounded

theorem TypeParameter.bounded :
    Bounds depth (TypeParameter.decode depth) TypeParameter.encode := by
  refine Record.bounds_decoder fun d => ?_
  refine (Record.grants_pure ?_)
    |>.plain
    |>.list TypeExpr.bounded_list
    |>.nullable TypeExpr.bounded
  intro name bounds hbounds default hdefault
  simp [TypeExpr.encodeAll_eq, hbounds, hdefault]

theorem TypeParameter.bounded_list :
    Bounds depth (asList TypeParameter.decode depth) fun ps =>
      .arr (ps.map TypeParameter.encode) :=
  bounds_asList fun _ _ => TypeParameter.bounded

theorem Parameter.bounded : Bounds depth (Parameter.decode depth) Parameter.encode := by
  refine Record.bounds_decoder fun d => ?_
  refine (Record.grants_pure ?_)
    |>.plain
    |>.nullable TypeExpr.bounded
    |>.plain
    |>.plain
    |>.plain
  intro name type htype default optional variadic
  simp [htype]

theorem ImportedName.bounded :
    Bounds depth (ImportedName.decode depth) ImportedName.encode := by
  refine Record.bounds_decoder fun d => ?_
  refine (Record.grants_pure ?_)
    |>.plain
    |>.plain
  simp

theorem Comment.grants (stage : Stage) :
    (Comment.record stage depth).Grants fun c => MembersWithin depth c.members := by
  refine (Record.grants_pure ?_)
    |>.plain
    |>.plain
    |>.required Location.bounded
  intro text format location hlocation
  simp [members, hlocation]

theorem Comment.bounded (stage : Stage) :
    Bounds depth (Comment.decode stage depth) Comment.encode :=
  Record.bounds_decoder fun _ => Comment.grants stage

/-! ## Nodes -/

theorem Import.grants :
    (Import.record depth).Grants fun i => MembersWithin depth i.members := by
  refine (Record.grants_pure ?_)
    |>.plain
    |>.plain
    |>.list (bounds_asList fun _ _ => ImportedName.bounded)
    |>.required Location.bounded
  intro module kind names hnames location hlocation
  simp [members, hnames, hlocation]

theorem Function.grants :
    (Function.record depth).Grants fun f => MembersWithin depth f.members := by
  refine (Record.grants_pure ?_)
    |>.plain
    |>.plain
    |>.listed (ModifierSet.bounded .kept) rfl
    |>.list (bounds_asList fun _ _ => bounds_asText)
    |>.list TypeParameter.bounded_list
    |>.given (bounds_asList fun _ _ => Parameter.bounded)
    |>.nullable TypeExpr.bounded
    |>.list TypeExpr.bounded_list
    |>.plain
    |>.optional (Comment.bounded .kept)
    |>.required Location.bounded
  intro name visibility modifiers hmodifiers decorators hdecorators typeParameters hparams
    parameters hparameters result hresult throws hthrows body doc hdoc location hlocation
  -- The list of parameters is written even if it is empty; the location has room for it.
  have hwritten : (Value.arr (parameters.map Parameter.encode)).Within depth := by
    rcases hparameters with h | rfl
    · exact h
    · exact within_arr.mpr ⟨(within_obj.mp hlocation).1, by simp⟩
  simp [members, encodeTexts, TypeExpr.encodeAll_eq, hmodifiers, hdecorators, hparams, hwritten,
    hresult, hthrows, hdoc, hlocation]

theorem Field.grants : (Field.record depth).Grants fun f => MembersWithin depth f.members := by
  refine (Record.grants_pure ?_)
    |>.plain
    |>.plain
    |>.listed (ModifierSet.bounded .kept) rfl
    |>.list (bounds_asList fun _ _ => bounds_asText)
    |>.nullable TypeExpr.bounded
    |>.plain
    |>.plain
    |>.optional (Comment.bounded .kept)
    |>.required Location.bounded
  intro name visibility modifiers hmodifiers decorators hdecorators type htype value enumMember
    doc hdoc location hlocation
  simp [members, encodeTexts, hmodifiers, hdecorators, htype, hdoc, hlocation]

theorem TypeAlias.grants :
    (TypeAlias.record depth).Grants fun a => MembersWithin depth a.members := by
  refine (Record.grants_pure ?_)
    |>.plain
    |>.plain
    |>.list TypeParameter.bounded_list
    |>.required TypeExpr.bounded
    |>.optional (Comment.bounded .kept)
    |>.required Location.bounded
  intro name visibility typeParameters hparams target htarget doc hdoc location hlocation
  simp [members, hparams, htarget, hdoc, hlocation]

theorem Problem.grants :
    (Problem.record depth).Grants fun p => MembersWithin depth p.members := by
  refine (Record.grants_pure ?_)
    |>.plain
    |>.plain
    |>.plain
    |>.required Location.bounded
  intro message severity code location hlocation
  simp [members, hlocation]

section Branches

variable {children : Reading → Except Fault (List Node)}
  (hchildren : Bounds depth children fun nodes => .arr (nodes.map Node.encode))

include hchildren

theorem FileHead.grants (stage : Stage) :
    (FileHead.record children depth stage).Grants fun (head, nodes) =>
      MembersWithin depth (head.members ++ childrenMember (nodes.map Node.encode)) := by
  refine (Record.grants_pure ?_)
    |>.plain
    |>.plain
    |>.required Location.bounded
    |>.list hchildren
  intro path language location hlocation nodes hnodes
  simp [members, childrenMember, hlocation, hnodes]

theorem PackageHead.grants :
    (PackageHead.record children depth).Grants fun (head, nodes) =>
      MembersWithin depth (head.members ++ childrenMember (nodes.map Node.encode)) := by
  refine (Record.grants_pure ?_)
    |>.plain
    |>.required Location.bounded
    |>.list hchildren
  intro name location hlocation nodes hnodes
  simp [members, childrenMember, hlocation, hnodes]

theorem TypeHead.grants (kind : TypeKind) :
    (TypeHead.record children depth kind).Grants fun (head, nodes) =>
      MembersWithin depth (head.members ++ childrenMember (nodes.map Node.encode)) := by
  refine (Record.grants_pure ?_)
    |>.plain
    |>.plain
    |>.listed (ModifierSet.bounded .kept) rfl
    |>.list (bounds_asList fun _ _ => bounds_asText)
    |>.list TypeParameter.bounded_list
    |>.list TypeExpr.bounded_list
    |>.list TypeExpr.bounded_list
    |>.nullable TypeExpr.bounded
    |>.optional (Comment.bounded .kept)
    |>.required Location.bounded
    |>.list hchildren
  intro name visibility modifiers hmodifiers decorators hdecorators typeParameters hparams
    bases hbases interfaces hinterfaces underlying hunderlying doc hdoc location hlocation
    nodes hnodes
  simp [members, childrenMember, encodeTexts, TypeExpr.encodeAll_eq, hmodifiers, hdecorators,
    hparams, hbases, hinterfaces, hunderlying, hdoc, hlocation, hnodes]

end Branches

namespace Node

variable {children : Reading → Except Fault (List Node)}

theorem grants (hchildren : Bounds depth children fun nodes => .arr (nodes.map encode))
    (kind : NodeKind) :
    (record children depth kind).Grants fun node => MembersWithin depth node.members := by
  cases kind with
  | file => exact .map (FileHead.grants hchildren .kept)
  | package => exact .map (PackageHead.grants hchildren)
  | type kind => exact .map (TypeHead.grants hchildren kind)
  | imported => exact .map Import.grants
  | function => exact .map Function.grants
  | field => exact .map Field.grants
  | typeAlias => exact .map TypeAlias.grants
  | comment => exact .map (Comment.grants .kept)
  | problem => exact .map Problem.grants

/-- A node nests one level more than its members, whichever way its kind is looked up. -/
theorem bounded_decodeWith {kindOf : Reading → Except Fault NodeKind}
    (hchildren : Bounds depth children fun nodes => .arr (nodes.map encode)) :
    Bounds (depth + 1) (decodeWith kindOf children depth) encode := by
  intro item node h
  have hmembers : MembersWithin depth node.members := by
    unfold decodeWith at h
    split at h
    next members closed =>
      obtain ⟨⟨kind?, others⟩, -, h⟩ := bind_eq_ok.mp h
      dsimp only at h
      split at h
      · cases kind? with
        | none => cases h
        | some kind => exact (grants hchildren kind).ofMembers h
      · cases h
    next => split at h <;> cases h
    next first rest closed =>
      obtain ⟨kind, -, h⟩ := bind_eq_ok.mp h
      split at h
      · exact (grants hchildren kind).ofArray h
      · cases h
    next => cases h
  rw [encode_eq]
  exact MembersWithin.obj (membersWithin_cons.mpr ⟨within_str _, hmembers⟩)

theorem bounded_inner : Bounds depth (decodeInner depth) encode := by
  induction depth using Nat.strongRecOn with
  | ind depth ih =>
      intro item node h
      cases depth with
      | zero => cases h
      | succ d =>
          have hchildren : Bounds d (asList decodeInner d) fun nodes => .arr (nodes.map encode) :=
            bounds_asList fun d' hd' => ih d' (by omega)
          rw [decodeInner_eq] at h
          exact bounded_decodeWith hchildren item node h

theorem bounded : Bounds depth (decode depth) encode := by
  intro item node h
  cases depth with
  | zero => cases h
  | succ d => exact bounded_decodeWith (bounds_asList fun _ _ => bounded_inner) item node h

end Node

theorem Outline.bounded : Bounds depth (Outline.decode depth) Outline.encode := by
  intro item o h
  cases depth with
  | zero => cases h
  | succ d =>
      have hchildren : Bounds d (asList Node.decode d) fun nodes => .arr (nodes.map Node.encode) :=
        bounds_asList fun _ _ => Node.bounded
      rw [Outline.encode, Node.encodeAll_eq]
      have hgrants : ((Record.pure fun (head, nodes) => Outline.mk head nodes).seq
          (FileHead.record (asList Node.decode d) d .streamed)).Grants fun o =>
            MembersWithin d (o.head.members ++ childrenMember (o.children.map Node.encode)) :=
        .map (FileHead.grants hchildren .streamed)
      exact (hgrants.decode h).obj

/-! ## Texts -/

/-- An outline that was read from any text is read again from its compact form, which nests no
deeper than allowed, and is written in the same way. -/
theorem Outline.decodeText_canonical {text : List Char} {o : Outline}
    (h : decodeText Outline.decode text = .ok o) :
    o.encode.depth ≤ depthLimit ∧
      ∃ again, decodeText Outline.decode o.encode.toCompact.toList = .ok again ∧ again = o ∧
        again.encode.toCompact = o.encode.toCompact := by
  obtain ⟨a, hdecode, hclean⟩ := bind_eq_ok.mp h
  obtain ⟨-, rfl⟩ := ite_eq_ok.mp hclean
  have hwithin : a.encode.Within depthLimit := Outline.bounded _ a hdecode
  refine ⟨hwithin.depth, a, ?_, rfl, rfl⟩
  rw [Value.toCompact, String.toList_ofList, decodeText, (spells_compact _).parse_eq]
  simp only [Outline.restores a hwithin]
  rfl

/-- A file with an unknown member, whose class says its kind last and a modifier twice. The method
of the class, its parameter and all locations are arrays, some of which leave out what is at their
end. -/
def Outline.sealForm : Value :=
  .obj
    [("schema", .bool true), ("language", .str "java"),
     ("children", .arr
       [.obj
         [("name", .str "Seal"), ("location", .arr (List.replicate 6 (.num 0))),
          ("extends", .arr []), ("underlying", .null), ("visibility", .obj [("public", .null)]),
          ("modifiers", .arr [.str "final", .str "abstract", .str "final"]),
          ("children", .arr
            [.arr
              [.str "function", .str "press", .str "public", .arr [], .arr [], .arr [],
               .arr [.arr [.str "wax", .null, .str "red"]], .null, .arr [], .null, .null,
               .arr (List.replicate 6 (.num 0))]]),
          ("kind", .str "class")]]),
     ("path", .str "Seal.java"), ("location", .arr ([1, 0, 4, 1, 0, 62].map .num))]

/-- What the form stands for. -/
def Outline.seal : Outline where
  head := { path := "Seal.java", language := .java, location := ⟨1, 0, 4, 1, 0, 62⟩ }
  children :=
    [.branch
      (.type
        { kind := .classType, name := "Seal", visibility := .pub
          modifiers := .ofList [.final, .abstract, .final], location := {} })
      [.leaf (.function
        { name := "press", visibility := .pub
          parameters := [{ name := "wax", default := some "red" }], location := {} })]]

set_option maxRecDepth 2048 in
theorem Outline.decodeText_canonical_seal :
    decodeText Outline.decode Outline.sealForm.toIndented.toList = .ok .seal ∧
      Outline.seal.encode.depth ≤ depthLimit ∧
      ∃ again, decodeText Outline.decode Outline.seal.encode.toCompact.toList = .ok again ∧
        again = .seal ∧ again.encode.toCompact = Outline.seal.encode.toCompact := by
  have hdecode : Outline.decode depthLimit Outline.sealForm.reading = .ok .seal := rfl
  have htext : decodeText Outline.decode Outline.sealForm.toIndented.toList = .ok .seal := by
    rw [Value.toIndented, String.toList_ofList, decodeText, (spells_indented _ 0).parse_eq]
    simp only [hdecode]
    rfl
  exact ⟨htext, Outline.decodeText_canonical htext⟩

end Precis
