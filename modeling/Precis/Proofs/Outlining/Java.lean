import Precis.Frontend.Java
import Precis.Proofs.Outlining.Regular

/-! # Java outlines are regular -/

namespace Precis.Java

open Node

variable {ok : Location → Prop} {source : List Char}

/-! ## Comments -/

theorem commentPiece_regular {t : ParseTree} (ht : ok (t.location source)) :
    (commentPiece source t).Regular ok source t := by
  unfold commentPiece
  dsimp only
  split
  · rename_i hformat
    refine ⟨?_, regular_nil⟩
    rintro c ⟨⟩
    exact ⟨hformat, rfl⟩
  · refine ⟨by simp [Piece.doc?], ?_⟩
    exact regular_leaf.mpr ht

/-! ## Leaves -/

theorem method?_regular (owner : Owner) {t : ParseTree} (ht : ok (t.location source)) :
    Regular ok (method? source owner t).toList := by
  apply regular_toList_map
  intro name
  exact regular_leaf.mpr ⟨ht, isDocumentation_none⟩

theorem constructor?_regular (owner : Owner) {t : ParseTree} (ht : ok (t.location source)) :
    Regular ok (constructor? source owner t).toList := by
  apply regular_toList_map
  intro name
  exact regular_leaf.mpr ⟨ht, isDocumentation_none⟩

theorem fieldNodes_regular (owner : Owner) {t : ParseTree} (ht : ok (t.location source)) :
    Regular ok (fieldNodes source owner t) := by
  apply regular_filterMap
  intro declarator _
  apply regular_toList_map
  intro name
  exact regular_leaf.mpr ⟨ht, isDocumentation_none, by simp⟩

theorem componentFields_regular {t : ParseTree} (ht : t.Placed ok source) :
    Regular ok (componentFields source t) := by
  unfold componentFields
  split
  · rename_i list hlist
    apply regular_filterMap
    intro part hpart
    unfold componentField?
    split
    · apply regular_toList_map
      intro name
      exact regular_leaf.mpr
        ⟨((ht.child? hlist).part hpart).here.1, isDocumentation_none, by simp⟩
    · exact regular_nil
  · exact regular_nil

theorem constantField?_regular (enumName : String) {t : ParseTree}
    (ht : ok (t.location source)) : Regular ok (constantField? source enumName t).toList := by
  apply regular_toList_map
  intro name
  exact regular_leaf.mpr ⟨ht, isDocumentation_none, fun _ => isPublicConstant_ofEnum ..⟩

theorem leafMember_regular (owner : Owner) {t : ParseTree} (ht : ok (t.location source)) :
    Regular ok (leafMember source owner t) := by
  unfold leafMember
  apply regular_ite
  · exact regular_branch.mpr ⟨ht, regular_nil⟩
  apply regular_ite
  · exact regular_leaf.mpr ht
  apply regular_ite
  · exact method?_regular owner ht
  apply regular_ite
  · exact constructor?_regular owner ht
  apply regular_ite
  · exact fieldNodes_regular owner ht
  · exact regular_nil

theorem member_of_package {owner : Owner} {t : ParseTree} (h : t.kind = "package_declaration") :
    member source owner t = [packageNode source t] := by
  simp [member, leafMember, h]

theorem member_of_import {owner : Owner} {t : ParseTree} (h : t.kind = "import_declaration") :
    member source owner t = [importNode source t] := by
  simp [member, leafMember, h]

/-! ## Types -/

/-- A type declaration is regular if its members are; what the heads of classes, interfaces, enums
and records add to the common part does not matter. -/
theorem declared_regular {owner : Owner} {kind : TypeKind} {t : ParseTree}
    {f : TypeHead → TypeHead} {inside : TypeHead → List Node} (ht : ok (t.location source))
    (hf : ∀ head, (f head).location = head.location ∧ (f head).doc = head.doc)
    (hinside : ∀ head, Regular ok (inside head)) :
    Regular ok (((typeHead? source owner kind t).map f).toList.map fun head =>
      .branch (.type head) (inside head)) := by
  unfold typeHead?
  cases t.textOf? "name" source with
  | none => exact regular_nil
  | some name =>
      refine regular_branch.mpr ⟨?_, hinside _⟩
      simp only [Label.Regular, (hf _).1, (hf _).2]
      exact ⟨ht, isDocumentation_none⟩

theorem body_regular {owner : Owner} {t : ParseTree}
    (h : ∀ block, t.child? "body" = some block → Regular ok (members source owner block)) :
    Regular ok (body source owner t) := by
  rw [body_eq]
  cases hbody : t.child? "body" with
  | none => exact regular_nil
  | some block => exact h block hbody

/-- What a node gives is regular, whether it stands as a member, as a body, in the body of an enum
or as the body of an enum. -/
structure Outlined (ok : Location → Prop) (source : List Char) (t : ParseTree) : Prop where
  member : ∀ owner, Regular ok (member source owner t)
  members : ∀ owner, Regular ok (members source owner t)
  enumPiece : ∀ enumName, (enumPiece source enumName t).Regular ok source t
  enumBody : ∀ enumName, Regular ok (arrange (t.parts.map (Java.enumPiece source enumName)))

theorem member_regular {t : ParseTree} (ht : t.Placed ok source)
    (ih : ∀ c ∈ t.children, Outlined ok source c) (owner : Owner) :
    Regular ok (member source owner t) := by
  have hlocation := ht.here.1
  have hbody : ∀ owner, Regular ok (body source owner t) := by
    intro owner
    apply body_regular
    intro block hblock
    exact (ih block (ParseTree.mem_of_child? hblock)).members owner
  by_cases henum : t.kind = "enum_declaration"
  · rw [member_of_enum source owner t henum]
    refine declared_regular hlocation (fun _ => ⟨rfl, rfl⟩) ?_
    intro head
    cases hblock : t.child? "body" with
    | none => exact regular_nil
    | some block => exact (ih block (ParseTree.mem_of_child? hblock)).enumBody head.name
  · rw [member, if_neg henum]
    apply regular_ite
    · exact declared_regular hlocation (fun _ => ⟨rfl, rfl⟩) fun _ => hbody _
    apply regular_ite
    · exact declared_regular hlocation (fun _ => ⟨rfl, rfl⟩) fun _ => hbody _
    apply regular_ite
    · refine declared_regular hlocation (fun _ => ⟨rfl, rfl⟩) ?_
      intro head
      exact regular_append.mpr ⟨componentFields_regular ht, hbody _⟩
    · exact leafMember_regular owner hlocation

theorem members_regular {t : ParseTree} (ht : t.Placed ok source)
    (ih : ∀ c ∈ t.children, Outlined ok source c) (owner : Owner) :
    Regular ok (members source owner t) := by
  rw [members_eq]
  apply regular_arrange_siblings ht t.parts_sublist
  intro part hpart
  split_ifs
  · exact commentPiece_regular (ht.part hpart).here.1
  · exact .element ((ih part (ParseTree.mem_of_mem_parts hpart)).member owner)

theorem outlined_of_placed {t : ParseTree} (ht : t.Placed ok source) : Outlined ok source t := by
  unfold ParseTree.Placed at ht
  induction ht with
  | @intro t here below ih =>
      have ht : t.Placed ok source := .intro here below
      have hmember := member_regular ht ih
      have hmembers := members_regular ht ih
      refine ⟨hmember, hmembers, ?_, ?_⟩
      · intro enumName
        rw [enumPiece]
        split_ifs
        · exact .element (constantField?_regular enumName here.1)
        · exact commentPiece_regular here.1
        · exact .group (hmembers .enumType)
        · exact .element (hmember .enumType)
      · intro enumName
        apply regular_arrange_siblings ht t.parts_sublist
        intro part hpart
        exact (ih part (ParseTree.mem_of_mem_parts hpart)).enumPiece enumName

theorem outline_regular {root : ParseTree} (h : root.Placed ok source) :
    Regular ok (outline source root) :=
  (outlined_of_placed h).members .file

end Precis.Java
