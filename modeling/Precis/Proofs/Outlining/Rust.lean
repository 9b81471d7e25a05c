import Precis.Frontend.Rust
import Precis.Proofs.Outlining.Regular

/-! # Rust outlines are regular -/

namespace Precis.Rust

open Node

variable {ok : Location → Prop} {source : List Char}

/-! ## Comments and attributes -/

theorem commentPiece_regular {t : ParseTree} (ht : ok (t.location source)) :
    (commentPiece source t).Regular ok source t := by
  unfold commentPiece
  dsimp only
  split
  · rename_i hdoc
    rw [Bool.and_eq_true, decide_eq_true_eq] at hdoc
    refine ⟨?_, regular_nil⟩
    rintro c ⟨⟩
    exact ⟨hdoc.1, rfl⟩
  · refine ⟨by simp [Piece.doc?], ?_⟩
    exact regular_leaf.mpr ht

theorem withAttributes_trees (attributes : List String) (parts : List ParseTree) :
    ((withAttributes source attributes parts).map Item.tree).Sublist parts := by
  induction parts generalizing attributes with
  | nil => exact List.Sublist.refl []
  | cons t rest ih =>
      rw [withAttributes]
      split_ifs
      · exact (ih _).cons t
      · exact (ih _).cons_cons t
      · exact (ih _).cons_cons t

/-- A body of comments, attributes and elements is regular if its elements are. -/
theorem arrange_pieces_regular {body : ParseTree} {parts : List ParseTree}
    {nodes : Item → List Node} (hbody : body.Placed ok source)
    (hparts : parts.Sublist body.children)
    (hnodes : ∀ item, ok (item.tree.location source) → Regular ok (nodes item)) :
    Regular ok (arrange (pieces source nodes (itemsOf source parts))) := by
  have htrees : ((itemsOf source parts).map Item.tree).Sublist body.children :=
    (withAttributes_trees [] parts).trans hparts
  refine regular_arrange Item.tree hbody htrees ?_
  intro item hitem
  have hlocation : ok (item.tree.location source) :=
    (hbody.child (htrees.mem (List.mem_map_of_mem hitem))).here.1
  split_ifs
  · exact commentPiece_regular hlocation
  · exact .element (hnodes item hlocation)

/-! ## Leaves -/

theorem functionNode_regular (forced : Option Visibility) (extra : Function → Option Modifier)
    {item : Item} (h : ok (item.tree.location source)) :
    Regular ok ((function? source forced item).map (functionNode extra)).toList := by
  apply regular_toList
  intro node hnode
  obtain ⟨f, hf, rfl⟩ := Option.map_eq_some_iff.mp hnode
  obtain ⟨name, -, rfl⟩ := Option.map_eq_some_iff.mp hf
  exact regular_leaf.mpr ⟨h, isDocumentation_none⟩

theorem constant?_regular (forced : Option Visibility) {item : Item}
    (h : ok (item.tree.location source)) :
    Regular ok (constant? source forced item).toList := by
  apply regular_toList_map
  intro name
  exact regular_leaf.mpr ⟨h, isDocumentation_none, by simp⟩

theorem exists_of_typeAlias? {forced : Option Visibility} {t : ParseTree} {node : Node}
    (h : typeAlias? source forced t = some node) :
    ∃ found : TypeAlias, found.doc = none ∧ found.location = t.location source ∧
      node = .leaf (.typeAlias found) := by
  simp only [typeAlias?, Option.bind_eq_bind, Option.bind_eq_some_iff] at h
  obtain ⟨name, -, target, -, h⟩ := h
  exact ⟨_, rfl, rfl, (Option.some.inj h).symm⟩

theorem typeAlias?_regular (forced : Option Visibility) {t : ParseTree}
    (h : ok (t.location source)) : Regular ok (typeAlias? source forced t).toList := by
  apply regular_toList
  intro node hnode
  obtain ⟨found, hdoc, hlocation, rfl⟩ := exists_of_typeAlias? hnode
  refine regular_leaf.mpr ⟨?_, ?_⟩
  · rwa [hlocation]
  · rw [hdoc]
    exact isDocumentation_none

theorem useNode?_regular {t : ParseTree} (h : ok (t.location source)) :
    Regular ok (useNode? source t).toList := by
  apply regular_toList_map
  intro argument
  exact regular_leaf.mpr h

theorem crateNode?_regular {t : ParseTree} (h : ok (t.location source)) :
    Regular ok (crateNode? source t).toList := by
  apply regular_toList_map
  intro name
  exact regular_leaf.mpr h

/-! ## Members of types -/

theorem namedFields_regular {body : ParseTree} (hbody : body.Placed ok source) :
    Regular ok (namedFields source body) := by
  apply arrange_pieces_regular hbody (List.filter_sublist.trans body.parts_sublist)
  intro item hitem
  apply regular_toList_map
  intro name
  exact regular_leaf.mpr ⟨hitem, isDocumentation_none, by simp⟩

theorem tupleFieldsFrom_regular (position : Nat) (visibility : Visibility)
    {parts : List ParseTree} (h : ∀ t ∈ parts, ok (t.location source)) :
    Regular ok (tupleFieldsFrom source position visibility parts) := by
  induction parts generalizing position visibility with
  | nil => exact regular_nil
  | cons t rest ih =>
      have hrest : ∀ u ∈ rest, ok (u.location source) :=
        fun u hu => h u (List.mem_cons_of_mem _ hu)
      rw [tupleFieldsFrom]
      split_ifs
      · exact ih _ _ hrest
      · exact ih _ _ hrest
      · rw [← List.singleton_append, regular_append, regular_leaf]
        exact ⟨⟨h t List.mem_cons_self, isDocumentation_none, by simp⟩, ih _ _ hrest⟩

theorem structFields_regular {t : ParseTree} (ht : t.Placed ok source) :
    Regular ok (structFields source t) := by
  unfold structFields
  split
  · rename_i body hbody
    have hplaced := ht.child? hbody
    apply regular_ite
    · exact namedFields_regular hplaced
    apply regular_ite
    · exact tupleFieldsFrom_regular _ _ fun part hpart => (hplaced.part hpart).here.1
    · exact regular_nil
  · exact regular_nil

theorem variants_regular (enumName : List Char) {t : ParseTree} (ht : t.Placed ok source) :
    Regular ok (variants source enumName t) := by
  unfold variants
  split
  · rename_i body hbody
    have hplaced := ht.child? hbody
    apply regular_arrange_siblings hplaced (List.filter_sublist.trans body.parts_sublist)
    intro part hpart
    have hlocation := (hplaced.part (List.mem_filter.mp hpart).1).here.1
    split_ifs
    · exact commentPiece_regular hlocation
    · apply Piece.Regular.element
      apply regular_toList_map
      intro name
      exact regular_leaf.mpr
        ⟨hlocation, isDocumentation_none, fun _ => isPublicConstant_ofEnum ..⟩
  · exact regular_nil

theorem traitMembers_regular {t : ParseTree} (ht : t.Placed ok source) :
    Regular ok (traitMembers source t) := by
  unfold traitMembers traitBody
  split
  · rename_i body hbody
    apply arrange_pieces_regular (ht.child? hbody) body.parts_sublist
    intro item hitem
    unfold traitMember
    apply regular_ite
    · exact functionNode_regular _ _ hitem
    apply regular_ite
    · exact constant?_regular _ hitem
    · exact regular_nil
  · exact regular_nil

theorem implMembers_regular (ofTrait : Bool) {t : ParseTree} (ht : t.Placed ok source) :
    Regular ok (implMembers source ofTrait t) := by
  unfold implMembers implBody
  split
  · rename_i body hbody
    apply arrange_pieces_regular (ht.child? hbody) body.parts_sublist
    intro item hitem
    unfold implMember
    apply regular_ite
    · exact functionNode_regular _ _ hitem
    apply regular_ite
    · exact constant?_regular _ hitem
    apply regular_ite
    · exact typeAlias?_regular _ hitem
    · exact regular_nil
  · exact regular_nil

/-! ## Types -/

/-- A type declaration apart from its `impl` blocks. -/
def Declared (ok : Location → Prop) (declared : TypeHead × List Node) : Prop :=
  Label.Regular ok (.head (.type declared.1)) ∧ Regular ok declared.2

theorem struct?_declared {item : Item} {declared : TypeHead × List Node}
    (ht : item.tree.Placed ok source) (h : struct? source item = some declared) :
    Declared ok declared := by
  obtain ⟨name, -, rfl⟩ := Option.map_eq_some_iff.mp h
  exact ⟨⟨ht.here.1, isDocumentation_none⟩, structFields_regular ht⟩

theorem enum?_declared {item : Item} {declared : TypeHead × List Node}
    (ht : item.tree.Placed ok source) (h : enum? source item = some declared) :
    Declared ok declared := by
  obtain ⟨name, -, rfl⟩ := Option.map_eq_some_iff.mp h
  exact ⟨⟨ht.here.1, isDocumentation_none⟩, variants_regular name ht⟩

theorem trait?_declared {item : Item} {declared : TypeHead × List Node}
    (ht : item.tree.Placed ok source) (h : trait? source item = some declared) :
    Declared ok declared := by
  obtain ⟨name, -, rfl⟩ := Option.map_eq_some_iff.mp h
  exact ⟨⟨ht.here.1, isDocumentation_none⟩, traitMembers_regular ht⟩

/-! ## Implementations -/

/-- What `impl` blocks contribute is regular and has a good location. -/
def ImplGroup.Regular (ok : Location → Prop) (group : ImplGroup) : Prop :=
  ok group.location ∧ Node.Regular ok group.members

theorem implGroup?_regular {t : ParseTree} {group : ImplGroup} (ht : t.Placed ok source)
    (h : implGroup? source t = some group) : group.Regular ok := by
  unfold implGroup? at h
  split_ifs at h
  obtain ⟨target, -, rfl⟩ := Option.map_eq_some_iff.mp h
  exact ⟨ht.here.1, implMembers_regular _ ht⟩

theorem addImpl_regular {found : List ImplGroup} {new : ImplGroup}
    (hfound : ∀ group ∈ found, group.Regular ok) (hnew : new.Regular ok) :
    ∀ group ∈ addImpl found new, group.Regular ok := by
  induction found with
  | nil => simpa [addImpl] using hnew
  | cons first rest ih =>
      obtain ⟨hfirst, hrest⟩ := List.forall_mem_cons.mp hfound
      rw [addImpl]
      split_ifs
      · refine List.forall_mem_cons.mpr ⟨⟨hfirst.1, ?_⟩, hrest⟩
        exact regular_append.mpr ⟨hfirst.2, hnew.2⟩
      · exact List.forall_mem_cons.mpr ⟨hfirst, ih hrest⟩

theorem foldl_addImpl_regular {found new : List ImplGroup}
    (hfound : ∀ group ∈ found, group.Regular ok) (hnew : ∀ group ∈ new, group.Regular ok) :
    ∀ group ∈ new.foldl addImpl found, group.Regular ok := by
  induction new generalizing found with
  | nil => exact hfound
  | cons first rest ih =>
      obtain ⟨hfirst, hrest⟩ := List.forall_mem_cons.mp hnew
      exact ih (addImpl_regular hfound hfirst) hrest

theorem implGroups_regular {container : ParseTree} (h : container.Placed ok source) :
    ∀ group ∈ implGroups source container.parts, group.Regular ok := by
  apply foldl_addImpl_regular (List.forall_mem_nil _)
  intro new hnew
  obtain ⟨t, ht, hgroup⟩ := List.mem_filterMap.mp hnew
  exact implGroup?_regular (h.part ht) hgroup

theorem map_fst_assign (source : List Char) (locals : List (List Char))
    (groups : List ImplGroup) (items : List Item) :
    (assign source locals groups items).map Prod.fst = items := by
  induction items generalizing groups with
  | nil => rfl
  | cons item rest ih =>
      rw [assign]
      split <;> rw [List.map_cons, ih]

theorem mem_groups_of_mem_assign {locals : List (List Char)} {groups : List ImplGroup}
    {items : List Item} {item : Item} {group : ImplGroup}
    (h : (item, some group) ∈ assign source locals groups items) : group ∈ groups := by
  induction items generalizing groups with
  | nil => simp [assign] at h
  | cons first rest ih =>
      rw [assign] at h
      split at h
      · rename_i taken htaken
        rcases List.mem_cons.mp h with h | h
        · obtain ⟨target, -, hfind⟩ := Option.bind_eq_some_iff.mp htaken
          obtain ⟨-, rfl⟩ : item = first ∧ group = taken := by simpa using h
          exact List.mem_of_find?_eq_some hfind
        · exact (List.mem_filter.mp (ih h)).1
      · rcases List.mem_cons.mp h with h | h
        · simp at h
        · exact ih h

theorem merged_regular {group : Option ImplGroup} {declared : TypeHead × List Node}
    (hgroup : ∀ g ∈ group, g.Regular ok) (h : Declared ok declared) :
    Regular ok [merged group declared] := by
  cases group with
  | none => exact regular_branch.mpr h
  | some group =>
      exact regular_branch.mpr ⟨h.1, regular_append.mpr ⟨h.2, (hgroup group rfl).2⟩⟩

theorem foreignType_regular {group : ImplGroup} (h : group.Regular ok) :
    Regular ok [foreignType group] :=
  regular_branch.mpr ⟨⟨h.1, isDocumentation_none⟩, h.2⟩

/-! ## Items -/

theorem plainItem_regular {item : Item} {group : Option ImplGroup}
    (ht : item.tree.Placed ok source) (hgroup : ∀ g ∈ group, g.Regular ok) :
    Regular ok (plainItem source item group) := by
  have hlocation := ht.here.1
  have hmerged : ∀ {found : Option (TypeHead × List Node)} (group : Option ImplGroup),
      (∀ g ∈ group, g.Regular ok) → (∀ d, found = some d → Declared ok d) →
        Regular ok (found.map (merged group)).toList := by
    intro found group hgroup hfound
    apply regular_toList
    intro node hnode
    obtain ⟨declared, hdeclared, rfl⟩ := Option.map_eq_some_iff.mp hnode
    exact merged_regular hgroup (hfound declared hdeclared)
  unfold plainItem
  dsimp only
  apply regular_ite
  · exact useNode?_regular hlocation
  apply regular_ite
  · exact crateNode?_regular hlocation
  apply regular_ite
  · exact hmerged group hgroup fun _ => struct?_declared ht
  apply regular_ite
  · exact hmerged group hgroup fun _ => enum?_declared ht
  apply regular_ite
  · exact hmerged none (by simp) fun _ => trait?_declared ht
  apply regular_ite
  · apply regular_toList
    intro node hnode
    obtain ⟨g, hg, rfl⟩ := Option.map_eq_some_iff.mp hnode
    exact foreignType_regular (hgroup g hg)
  apply regular_ite
  · exact functionNode_regular _ _ hlocation
  apply regular_ite
  · exact typeAlias?_regular _ hlocation
  apply regular_ite
  · exact constant?_regular _ hlocation
  · exact regular_nil

/-- The nodes of an item with its group of `impl` blocks; comments have none. -/
def itemNodes (source : List Char) (x : Item × Option ImplGroup) : List Node :=
  if isComment x.1.tree then []
  else if x.1.tree.kind = "mod_item" then
    (x.1.tree.textOf? "name" source).toList.map fun name =>
      match x.1.tree.child? "body" with
      | some body =>
        .branch (.package ⟨String.ofList name, x.1.tree.location source⟩) (items source body)
      | none =>
        .leaf (.imported
          { module := String.ofList name, kind := .namespaced,
            location := x.1.tree.location source })
  else plainItem source x.1 x.2

/-- Comments stand by themselves; every other item becomes its nodes. -/
theorem items_eq_itemNodes (source : List Char) (container : ParseTree) :
    items source container = arrange ((assignedItems source container).map fun x =>
      if isComment x.1.tree then commentPiece source x.1.tree
      else .element (itemNodes source x)) := by
  rw [items_eq]
  congr 2
  funext ⟨item, group⟩
  dsimp only [itemNodes]
  split_ifs <;> rfl

theorem assignedItems_trees (source : List Char) (container : ParseTree) :
    ((assignedItems source container).map fun x => x.1.tree).Sublist container.children := by
  have hitems := map_fst_assign source (localTypes source container.parts)
    (implGroups source container.parts) (itemsOf source container.parts)
  have htrees : (assignedItems source container).map (fun x => x.1.tree) =
      (itemsOf source container.parts).map Item.tree := by
    rw [← hitems, List.map_map]
    rfl
  rw [htrees]
  exact (withAttributes_trees [] container.parts).trans container.parts_sublist

/-- What a node gives is regular, as a container of items and as a module with a body. -/
structure Outlined (ok : Location → Prop) (source : List Char) (t : ParseTree) : Prop where
  items : Regular ok (items source t)
  body : ∀ body, t.child? "body" = some body → Regular ok (Rust.items source body)

theorem items_regular {container : ParseTree} (h : container.Placed ok source)
    (ih : ∀ c ∈ container.children, Outlined ok source c) :
    Regular ok (items source container) := by
  have htrees := assignedItems_trees source container
  rw [items_eq]
  refine regular_arrange (fun x => x.1.tree) h htrees ?_
  rintro ⟨item, group⟩ hmem
  have hchild : item.tree ∈ container.children :=
    htrees.mem (List.mem_map.mpr ⟨(item, group), hmem, rfl⟩)
  have hplaced := h.child hchild
  have hgroup : ∀ g ∈ group, g.Regular ok := by
    rintro g ⟨⟩
    exact implGroups_regular h g (mem_groups_of_mem_assign hmem)
  dsimp only
  split_ifs
  · exact commentPiece_regular hplaced.here.1
  · apply Piece.Regular.element
    apply regular_iff_forall.mpr
    intro node hnode
    obtain ⟨name, -, rfl⟩ := List.mem_map.mp hnode
    split
    · rename_i body hbody
      exact regular_branch.mpr ⟨hplaced.here.1, (ih item.tree hchild).body body hbody⟩
    · exact regular_leaf.mpr hplaced.here.1
  · exact .element (plainItem_regular hplaced hgroup)

theorem outlined_of_placed {t : ParseTree} (ht : t.Placed ok source) : Outlined ok source t := by
  unfold ParseTree.Placed at ht
  induction ht with
  | @intro t here below ih =>
      refine ⟨items_regular (.intro here below) ih, ?_⟩
      intro body hbody
      exact (ih body (ParseTree.mem_of_child? hbody)).items

theorem outline_regular {root : ParseTree} (h : root.Placed ok source) :
    Regular ok (outline source root) :=
  (outlined_of_placed h).items

end Precis.Rust
