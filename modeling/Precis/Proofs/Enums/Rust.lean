import Precis.Proofs.Enums.Tally
import Precis.Proofs.Outlining.Rust

/-! # Enums in Rust outlines -/

namespace Precis.Rust

/-- What enums and their variants are called. -/
def enumWords : EnumWords where
  declaration := "enum_item"
  member := "enum_variant"

variable {w : EnumWords} {source : List Char} {ds : List ParseTree}

/-! ## Comments and leaves -/

theorem commentPiece_tallies (t : ParseTree) :
    Tallies w source (commentPiece source t).nodes [] ds := by
  unfold commentPiece
  dsimp only
  split
  · exact .nil
  · exact .leaf rfl

theorem spellsMember_of_comment {t : ParseTree} (h : isComment t = true) :
    enumWords.spellsMember t = false := by
  simp only [isComment, Bool.or_eq_true, beq_iff_eq] at h
  rcases h with h | h <;> simp [EnumWords.spellsMember, enumWords, h]

theorem functionNode_tallies (forced : Option Visibility) (extra : Function → Option Modifier)
    (item : Item) :
    Tallies w source ((function? source forced item).map (functionNode extra)).toList [] ds :=
  .toList_map fun _ => .leaf rfl

theorem constant?_tallies (forced : Option Visibility) (item : Item) :
    Tallies w source (constant? source forced item).toList [] ds :=
  .toList_map fun _ => .leaf rfl

theorem typeAlias?_tallies (forced : Option Visibility) (t : ParseTree) :
    Tallies w source (typeAlias? source forced t).toList [] ds := by
  apply Tallies.toList
  intro node hnode
  obtain ⟨found, -, -, rfl⟩ := exists_of_typeAlias? hnode
  exact .leaf rfl

/-! ## Members of types -/

/-- A body of comments, attributes and elements has no members and no enums, if its elements have
none. -/
theorem pieces_tallies {nodes : Item → List Node}
    (h : ∀ item, Tallies w source (nodes item) [] []) (items : List Item) :
    Tallies w source (arrange (pieces source nodes items)) [] ds := by
  have harranged : Tallies w source (arrange (pieces source nodes items)) []
      (items.flatMap fun _ => []) := by
    apply tallies_arrange_plain
    intro item _
    split_ifs
    · exact commentPiece_tallies item.tree
    · exact h item
  refine harranged.mono ?_
  rw [List.flatMap_eq_nil_iff.mpr fun _ _ => rfl]
  exact List.nil_sublist ds

theorem tupleFieldsFrom_tallies (position : Nat) (visibility : Visibility)
    (parts : List ParseTree) :
    Tallies w source (tupleFieldsFrom source position visibility parts) [] ds := by
  induction parts generalizing position visibility with
  | nil => exact .nil
  | cons t rest ih =>
      rw [tupleFieldsFrom]
      split_ifs
      · exact ih _ _
      · exact ih _ _
      · exact (ih _ _).cons_leaf rfl

theorem structFields_tallies (t : ParseTree) : Tallies w source (structFields source t) [] ds := by
  unfold structFields
  split
  · apply Tallies.ite
    · apply pieces_tallies
      intro item
      exact .toList_map fun _ => .leaf rfl
    apply Tallies.ite
    · exact tupleFieldsFrom_tallies _ _ _
    · exact .nil
  · exact .nil

theorem traitMembers_tallies (t : ParseTree) : Tallies w source (traitMembers source t) [] ds := by
  unfold traitMembers traitBody
  split
  · apply pieces_tallies
    intro item
    unfold traitMember
    apply Tallies.ite
    · exact functionNode_tallies _ _ item
    apply Tallies.ite
    · exact constant?_tallies _ item
    · exact .nil
  · exact .nil

theorem implMembers_tallies (ofTrait : Bool) (t : ParseTree) :
    Tallies w source (implMembers source ofTrait t) [] ds := by
  unfold implMembers implBody
  split
  · apply pieces_tallies
    intro item
    unfold implMember
    apply Tallies.ite
    · exact functionNode_tallies _ _ item
    apply Tallies.ite
    · exact constant?_tallies _ item
    apply Tallies.ite
    · exact typeAlias?_tallies _ item.tree
    · exact .nil
  · exact .nil

/-- The variants of an enum are its members. -/
theorem variants_tallies (enumName : List Char) (t : ParseTree) :
    Tallies enumWords source (variants source enumName t) (enumWords.membersOf t)
      (t.children.flatMap enumWords.declarations) := by
  unfold variants EnumWords.membersOf
  cases hbody : t.child? "body" with
  | none => exact .nil
  | some body =>
      -- What is passed over declares no variant.
      have hparts : (body.parts.filter fun part =>
          isComment part || part.kind == "enum_variant").filter enumWords.spellsMember =
            body.parts.filter enumWords.spellsMember := by
        rw [List.filter_filter]
        apply List.filter_congr
        intro part _
        cases hkind : part.kind == "enum_variant" <;>
          simp [EnumWords.spellsMember, enumWords, hkind]
      rw [Option.map_some, Option.getD_some, ← hparts]
      have hchild : body ∈ t.children := ParseTree.mem_of_child? hbody
      refine Tallies.mono ?_ (EnumWords.declarations_sublist_flatMap hchild)
      apply tallies_arrange_members (List.filter_sublist.trans body.parts_sublist)
      intro part hpart
      split_ifs with hcomment
      · rw [List.filter_singleton, spellsMember_of_comment hcomment]
        exact commentPiece_tallies part
      · have hkind : part.kind = enumWords.member := by
          simpa [hcomment, enumWords] using (List.mem_filter.mp hpart).2
        exact .ofEnum hkind _

/-! ## Implementations -/

theorem addImpl_tallies {found : List ImplGroup} {new : ImplGroup}
    (hfound : ∀ group ∈ found, Tallies w source group.members [] [])
    (hnew : Tallies w source new.members [] []) :
    ∀ group ∈ addImpl found new, Tallies w source group.members [] [] := by
  induction found with
  | nil => simpa [addImpl] using hnew
  | cons first rest ih =>
      obtain ⟨hfirst, hrest⟩ := List.forall_mem_cons.mp hfound
      rw [addImpl]
      split_ifs
      · exact List.forall_mem_cons.mpr ⟨hfirst.append hnew, hrest⟩
      · exact List.forall_mem_cons.mpr ⟨hfirst, ih hrest⟩

theorem foldl_addImpl_tallies {found new : List ImplGroup}
    (hfound : ∀ group ∈ found, Tallies w source group.members [] [])
    (hnew : ∀ group ∈ new, Tallies w source group.members [] []) :
    ∀ group ∈ new.foldl addImpl found, Tallies w source group.members [] [] := by
  induction new generalizing found with
  | nil => exact hfound
  | cons first rest ih =>
      obtain ⟨hfirst, hrest⟩ := List.forall_mem_cons.mp hnew
      exact ih (addImpl_tallies hfound hfirst) hrest

theorem implGroups_tallies (parts : List ParseTree) :
    ∀ group ∈ implGroups source parts, Tallies w source group.members [] [] := by
  apply foldl_addImpl_tallies (List.forall_mem_nil _)
  intro new hnew
  obtain ⟨t, -, hgroup⟩ := List.mem_filterMap.mp hnew
  unfold implGroup? at hgroup
  split_ifs at hgroup
  obtain ⟨target, -, rfl⟩ := Option.map_eq_some_iff.mp hgroup
  exact implMembers_tallies _ t

/-- The children that `impl` blocks add stand behind those of the declaration. -/
theorem merged_eq (group : Option ImplGroup) (declared : TypeHead × List Node) :
    ∃ head, head.kind = declared.1.kind ∧ head.name = declared.1.name ∧
      head.location = declared.1.location ∧
      merged group declared =
        .branch (.type head) (declared.2 ++ (group.map ImplGroup.members).getD []) := by
  cases group with
  | none => exact ⟨declared.1, rfl, rfl, rfl, by simp [merged]⟩
  | some group =>
      exact ⟨{ declared.1 with interfaces := declared.1.interfaces ++ group.interfaces },
        rfl, rfl, rfl, rfl⟩

theorem getD_members_tallies {group : Option ImplGroup}
    (h : ∀ g ∈ group, Tallies w source g.members [] []) :
    Tallies w source ((group.map ImplGroup.members).getD []) [] [] := by
  cases group with
  | none => exact .nil
  | some group => exact h group rfl

theorem merged_tallies {group : Option ImplGroup} {found : Option (TypeHead × List Node)}
    (hfound : ∀ d, found = some d → d.1.kind ≠ .enumType ∧ Tallies w source d.2 [] ds)
    (hgroup : ∀ g ∈ group, Tallies w source g.members [] []) :
    Tallies w source (found.map (merged group)).toList [] ds := by
  apply Tallies.toList
  intro node hnode
  obtain ⟨declared, hdeclared, rfl⟩ := Option.map_eq_some_iff.mp hnode
  obtain ⟨hkind, hmembers⟩ := hfound declared hdeclared
  obtain ⟨head, hhead, -, -, hmerged⟩ := merged_eq group declared
  rw [hmerged]
  apply Tallies.branch
  · simpa [Head.kind, hhead] using hkind
  · simpa using hmembers.append (getD_members_tallies hgroup)

theorem enum?_tallies {group : Option ImplGroup} {item : Item}
    (hkind : item.tree.kind = enumWords.declaration)
    (hgroup : ∀ g ∈ group, Tallies enumWords source g.members [] []) :
    Tallies enumWords source ((enum? source item).map (merged group)).toList []
      (enumWords.declarations item.tree) := by
  apply Tallies.toList
  intro node hnode
  obtain ⟨declared, hdeclared, rfl⟩ := Option.map_eq_some_iff.mp hnode
  obtain ⟨name, hname, rfl⟩ := Option.map_eq_some_iff.mp hdeclared
  obtain ⟨head, hhead, hheadName, hlocation, hmerged⟩ := merged_eq group _
  rw [hmerged, EnumWords.declarations_of_kind hkind]
  apply Tallies.enum hhead
  · rw [hname, hheadName]
    rfl
  · exact hlocation
  · simpa using (variants_tallies name item.tree).append (getD_members_tallies hgroup)

/-! ## Items -/

theorem plainItem_tallies {item : Item} {group : Option ImplGroup}
    (hgroup : ∀ g ∈ group, Tallies enumWords source g.members [] []) :
    Tallies enumWords source (plainItem source item group) []
      (enumWords.declarations item.tree) := by
  unfold plainItem
  dsimp only
  apply Tallies.ite
  · exact .toList_map fun _ => .leaf rfl
  apply Tallies.ite
  · exact .toList_map fun _ => .leaf rfl
  apply Tallies.ite
  · refine merged_tallies ?_ hgroup
    intro declared hdeclared
    obtain ⟨name, -, rfl⟩ := Option.map_eq_some_iff.mp hdeclared
    exact ⟨by simp [typeHead], structFields_tallies item.tree⟩
  split
  · rename_i hkind
    exact enum?_tallies hkind hgroup
  apply Tallies.ite
  · refine merged_tallies ?_ (by simp)
    intro declared hdeclared
    obtain ⟨name, -, rfl⟩ := Option.map_eq_some_iff.mp hdeclared
    exact ⟨by simp [typeHead], traitMembers_tallies item.tree⟩
  apply Tallies.ite
  · apply Tallies.toList
    intro node hnode
    obtain ⟨g, hg, rfl⟩ := Option.map_eq_some_iff.mp hnode
    exact ((hgroup g hg).mono (List.nil_sublist _)).branch (by simp [Head.kind])
  apply Tallies.ite
  · exact functionNode_tallies _ _ item
  apply Tallies.ite
  · exact typeAlias?_tallies _ item.tree
  apply Tallies.ite
  · exact constant?_tallies _ item
  · exact .nil

/-- The enums of a container of items are among those that are declared in it. -/
theorem items_tallies (container : ParseTree) :
    Tallies enumWords source (items source container) [] (enumWords.declarations container) := by
  induction hsize : container.size using Nat.strongRecOn generalizing container with
  | ind n ih =>
      have htrees := assignedItems_trees source container
      rw [items_eq]
      refine tallies_arrange_siblings (fun x => x.1.tree) htrees ?_
      rintro ⟨item, group⟩ hmem
      have hgroup : ∀ g ∈ group, Tallies enumWords source g.members [] [] := by
        rintro g ⟨⟩
        exact implGroups_tallies container.parts g (mem_groups_of_mem_assign hmem)
      dsimp only
      split_ifs
      · exact commentPiece_tallies item.tree
      · cases item.tree.textOf? "name" source with
        | none => exact .nil
        | some name =>
            cases hbody : item.tree.child? "body" with
            | none => exact .leaf rfl
            | some body =>
                have hsmaller : body.size < n :=
                  hsize ▸ Nat.lt_trans (ParseTree.size_lt_of_child? hbody)
                    (size_lt_of_mem_assignedItems hmem)
                have hitems := (ih body.size hsmaller body rfl).mono
                  (EnumWords.declarations_sublist (ParseTree.mem_of_child? hbody))
                exact hitems.branch (by simp [Head.kind])
      · exact plainItem_tallies hgroup

end Precis.Rust
