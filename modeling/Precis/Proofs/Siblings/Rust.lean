import Precis.Proofs.Outlining.Rust
import Precis.Proofs.Siblings.Layout

/-! # Rust bodies, child by child

The members of types, traits and `impl` blocks and the items of a container are given from the
children before them. An item takes up the `impl` blocks for its type if no item before it does;
what all blocks for a type contribute is put together in the order of the blocks. -/

namespace Precis.Rust

/-- How the children of a body are told apart. -/
def dialect (source : List Char) : Dialect where
  isComment := isComment
  comment := comment source
  documents c := c.format = .doc && !isInnerDoc c.text.toList
  isAttribute := isAttribute
  decorator t := String.ofList (t.text source)
  decorated := [.type .structType, .type .enumType, .type .interfaceType, .function, .field]
  format_of_documents := by
    intro c h
    simpa using (Bool.and_eq_true_iff.mp h).1
  isComment_of_isAttribute := by
    intro t h
    have hkind : t.kind = "attribute_item" := by simpa [isAttribute] using h
    simp [isComment, hkind]
  comment_not_decorated := by decide

variable {source : List Char}

@[simp] theorem dialect_isComment (t : ParseTree) : (dialect source).isComment t = isComment t :=
  rfl

@[simp] theorem dialect_isAttribute (t : ParseTree) :
    (dialect source).isAttribute t = isAttribute t :=
  rfl

theorem isElement_of_not {t : ParseTree} (hattribute : ¬ isAttribute t = true)
    (hcomment : ¬ isComment t = true) : (dialect source).isElement t = true :=
  Dialect.isElement_iff.mpr ⟨by simpa using hattribute, by simpa using hcomment⟩

/-! ## Items with their attributes -/

/-- The item that a child is, given those before it; attributes are none. -/
def itemAt? (source : List Char) (child : List ParseTree × ParseTree) : Option Item :=
  if isAttribute child.2 then none
  else if isComment child.2 then some ⟨[], child.2⟩
  else some ⟨(dialect source).attributesBefore child.1, child.2⟩

theorem withAttributes_eq (seen parts : List ParseTree) :
    withAttributes source ((dialect source).attributesBefore seen) parts =
      (alongside seen parts).filterMap (itemAt? source) := by
  induction parts generalizing seen with
  | nil => rfl
  | cons t rest ih =>
      rw [withAttributes, alongside, List.filterMap_cons, itemAt?]
      dsimp only
      split_ifs with hattribute hcomment
      · rw [← ih, Dialect.attributesBefore_concat_of_attribute hattribute]
        rfl
      · rw [← ih, Dialect.attributesBefore_concat_of_comment (by simpa using hattribute) hcomment]
      · rw [← ih, Dialect.attributesBefore_concat_of_element (isElement_of_not hattribute hcomment)]

theorem itemsOf_eq (parts : List ParseTree) :
    itemsOf source parts = (alongside [] parts).filterMap (itemAt? source) :=
  withAttributes_eq [] parts

/-- What a child contributes, as an item. -/
theorem map_itemAt? (nodes : Item → List Node) (child : List ParseTree × ParseTree) :
    (itemAt? source child).map (fun item =>
      if isComment item.tree then commentPiece source item.tree else .element (nodes item)) =
        (dialect source).piece? (nodes ⟨(dialect source).attributesBefore child.1, child.2⟩)
          child.2 := by
  rw [itemAt?, Dialect.piece?, dialect_isAttribute, dialect_isComment]
  by_cases hattribute : isAttribute child.2 = true
  · rw [if_pos hattribute, if_pos hattribute]
    rfl
  rw [if_neg hattribute, if_neg hattribute]
  by_cases hcomment : isComment child.2 = true
  · rw [if_pos hcomment, if_pos hcomment, Option.map_some, if_pos hcomment, commentPiece]
    exact apply_ite some _ _ _
  · rw [if_neg hcomment, if_neg hcomment, Option.map_some, if_neg hcomment]

/-- The pieces of a body of members, from the children before each. -/
theorem pieces_itemsOf (nodes : Item → List Node) (parts : List ParseTree) :
    pieces source nodes (itemsOf source parts) =
      (dialect source).pieces
        (fun before t => nodes ⟨(dialect source).attributesBefore before, t⟩) [] parts := by
  rw [pieces, itemsOf_eq, List.map_filterMap, Dialect.pieces]
  exact List.filterMap_congr fun child _ => map_itemAt? nodes child

/-! ## The `impl` blocks for a type -/

/-- Whether a child is an `impl` block for a type. -/
def isImplOf (source target : List Char) (t : ParseTree) : Bool :=
  t.kind == "impl_item" && implTarget? source t == some target

/-- The `impl` blocks for a type, in order. -/
def implsOf (source target : List Char) (parts : List ParseTree) : List ParseTree :=
  parts.filter (isImplOf source target)

/-- The traits that some `impl` blocks implement, in order. -/
def traitsOf (source : List Char) (blocks : List ParseTree) : List TypeExpr :=
  blocks.filterMap fun t => typeOf? source t "trait"

/-- The members of some `impl` blocks, in order. -/
def membersOf (source : List Char) (blocks : List ParseTree) : List Node :=
  blocks.flatMap fun t => implMembers source (typeOf? source t "trait").isSome t

/-- What some `impl` blocks for a type contribute, in the place of the first. -/
def groupOf? (source : List Char) (blocks : List ParseTree) : Option ImplGroup :=
  blocks.head?.map fun first =>
    { target := (implTarget? source first).getD []
      location := first.location source
      typeParameters := typeParameters source first
      interfaces := traitsOf source blocks
      members := membersOf source blocks }

/-- The group for a type, after one more contribution to it. -/
def ImplGroup.joined (new : ImplGroup) : Option ImplGroup → ImplGroup
  | some group =>
    { group with
      interfaces := group.interfaces ++ new.interfaces
      members := group.members ++ new.members }
  | none => new

theorem find?_addImpl (found : List ImplGroup) (new : ImplGroup) (target : List Char) :
    (addImpl found new).find? (fun group => group.target == target) =
      if new.target = target then
        some (new.joined (found.find? fun group => group.target == target))
      else found.find? fun group => group.target == target := by
  induction found with
  | nil =>
      rw [addImpl, List.find?_singleton]
      simp [ImplGroup.joined]
  | cons group rest ih =>
      rw [addImpl]
      split_ifs with hsame htarget htarget
      · simp [ImplGroup.joined, hsame, htarget]
      · simp [hsame, htarget]
      · simp [ih, htarget, htarget ▸ hsame]
      · rw [List.find?_cons, List.find?_cons, ih, if_neg htarget]

/-- The group for a type depends on the contributions to it alone. -/
theorem find?_foldl_addImpl (found new : List ImplGroup) (target : List Char) :
    (new.foldl addImpl found).find? (fun group => group.target == target) =
      (new.filter fun group => group.target == target).foldl
        (fun group next => some (next.joined group))
        (found.find? fun group => group.target == target) := by
  induction new generalizing found with
  | nil => rfl
  | cons next rest ih =>
      rw [List.foldl_cons, ih, find?_addImpl]
      split_ifs with htarget
      · rw [List.filter_cons_of_pos (by simp [htarget]), List.foldl_cons]
      · rw [List.filter_cons_of_neg (by simp [htarget])]

theorem foldl_joined_some (group : ImplGroup) (new : List ImplGroup) :
    new.foldl (fun group next => some (ImplGroup.joined next group)) (some group) =
      some { group with
        interfaces := group.interfaces ++ new.flatMap ImplGroup.interfaces
        members := group.members ++ new.flatMap ImplGroup.members } := by
  induction new generalizing group with
  | nil => simp
  | cons next rest ih =>
      rw [List.foldl_cons, ImplGroup.joined, ih]
      simp

/-- What one `impl` block contributes to the group for its type. -/
def implGroup (source : List Char) (t : ParseTree) : ImplGroup where
  target := (implTarget? source t).getD []
  location := t.location source
  typeParameters := typeParameters source t
  interfaces := (typeOf? source t "trait").toList
  members := implMembers source (typeOf? source t "trait").isSome t

theorem filter_implGroup? (target : List Char) (t : ParseTree) :
    (implGroup? source t).filter (fun group => group.target == target) =
      if isImplOf source target t then some (implGroup source t) else none := by
  rw [implGroup?, isImplOf]
  split_ifs with himpl hboth hboth
  · have htarget : implTarget? source t = some target := by
      simpa using (Bool.and_eq_true_iff.mp hboth).2
    simp [implGroup, htarget]
  · rw [himpl, beq_self_eq_true, Bool.true_and, beq_iff_eq] at hboth
    cases htarget : implTarget? source t with
    | none => rfl
    | some other =>
        have hne : ¬ other = target := fun h => hboth (by rw [htarget, h])
        simp [hne]
  · exact absurd (beq_iff_eq.mp (Bool.and_eq_true_iff.mp hboth).1) himpl
  · rfl

/-- The contributions to a type are those of the `impl` blocks for it. -/
theorem filter_contributions (target : List Char) (parts : List ParseTree) :
    (parts.filterMap (implGroup? source)).filter (fun group => group.target == target) =
      (implsOf source target parts).map (implGroup source) := by
  rw [List.filter_filterMap, implsOf, ← List.filterMap_eq_map, List.filterMap_filter]
  exact List.filterMap_congr fun t _ => filter_implGroup? target t

/-- The group for a type holds what all `impl` blocks for it contribute, in order. -/
theorem find?_implGroups (target : List Char) (parts : List ParseTree) :
    (implGroups source parts).find? (fun group => group.target == target) =
      groupOf? source (implsOf source target parts) := by
  rw [implGroups, find?_foldl_addImpl, filter_contributions, List.find?_nil]
  unfold groupOf? traitsOf membersOf
  cases implsOf source target parts with
  | nil => rfl
  | cons first rest =>
      rw [List.map_cons, List.foldl_cons, ImplGroup.joined, foldl_joined_some, List.flatMap_map,
        List.flatMap_map, List.head?_cons, Option.map_some, List.filterMap_eq_flatMap_toList]
      rfl

/-! ## Who takes up a group -/

/-- Whether one of some siblings takes up the `impl` blocks for a type. -/
def claimed (source : List Char) (locals : List (List Char)) (before : List ParseTree)
    (target : List Char) : Bool :=
  before.any fun t => claim? source locals t == some target

/-- The groups that are left after some siblings. -/
def left (source : List Char) (locals : List (List Char)) (groups : List ImplGroup)
    (before : List ParseTree) : List ImplGroup :=
  groups.filter fun group => !claimed source locals before group.target

/-- The group that a child takes up, given those before it. -/
def taken (source : List Char) (locals : List (List Char)) (groups : List ImplGroup)
    (child : List ParseTree × ParseTree) : Option ImplGroup :=
  (claim? source locals child.2).bind fun target =>
    if claimed source locals child.1 target then none
    else groups.find? fun group => group.target == target

section Assign

variable (locals : List (List Char)) (groups : List ImplGroup)

theorem left_concat (before : List ParseTree) (t : ParseTree) :
    left source locals groups (before ++ [t]) =
      (left source locals groups before).filter fun group =>
        !(claim? source locals t == some group.target) := by
  rw [left, left, List.filter_filter]
  congr 1
  funext group
  simp [claimed, Bool.and_comm]

theorem left_concat_of_isAttribute (before : List ParseTree) {t : ParseTree}
    (h : isAttribute t = true) :
    left source locals groups (before ++ [t]) = left source locals groups before := by
  have hkind : t.kind = "attribute_item" := by simpa [isAttribute] using h
  have hclaim : claim? source locals t = none := by simp [claim?, declaresType, hkind]
  rw [left_concat, hclaim]
  exact List.filter_eq_self.mpr fun group _ => rfl

theorem find?_left (before : List ParseTree) (target : List Char) :
    (left source locals groups before).find? (fun group => group.target == target) =
      if claimed source locals before target then none
      else groups.find? fun group => group.target == target := by
  rw [left, List.find?_filter]
  split_ifs with h
  · rw [List.find?_eq_none]
    intro group _ hgroup
    obtain ⟨hleft, rfl⟩ : (!claimed source locals before group.target) = true ∧
        group.target = target := by simpa using hgroup
    rw [h] at hleft
    cases hleft
  · congr 1
    funext group
    by_cases htarget : group.target = target
    · simp [htarget, h]
    · simp [htarget]

/-- One item takes up a group that is left, and no item after it does. -/
theorem assign_left_cons (before : List ParseTree) (item : Item) (rest : List Item) :
    assign source locals (left source locals groups before) (item :: rest) =
      (item, taken source locals groups (before, item.tree)) ::
        assign source locals (left source locals groups (before ++ [item.tree])) rest := by
  have htaken : ((claim? source locals item.tree).bind fun target =>
      (left source locals groups before).find? fun group => group.target == target) =
        taken source locals groups (before, item.tree) := by
    simp only [taken, find?_left]
  rw [assign, htaken]
  cases hgroup : taken source locals groups (before, item.tree) with
  | some group =>
      rw [hgroup] at htaken
      obtain ⟨target, hclaim, hfind⟩ := Option.bind_eq_some_iff.mp htaken
      have htarget : group.target = target := by simpa using List.find?_some hfind
      dsimp only
      rw [left_concat, hclaim, htarget]
      congr 3
      funext other
      simp [bne, Bool.beq_comm]
  | none =>
      rw [hgroup] at htaken
      dsimp only
      rw [left_concat, List.filter_eq_self.mpr]
      intro group hmem
      -- Had the item claimed this group, it would have found one.
      cases hclaim : claim? source locals item.tree with
      | none => rfl
      | some target =>
          rw [hclaim, Option.bind_some, List.find?_eq_none] at htaken
          have hne : ¬ group.target = target := by simpa using htaken group hmem
          simp [Ne.symm hne]

/-- Handing out the groups from one item to the next gives each item the group that it takes up
where it stands. -/
theorem assign_left (seen parts : List ParseTree) :
    assign source locals (left source locals groups seen)
        ((alongside seen parts).filterMap (itemAt? source)) =
      (alongside seen parts).filterMap fun child =>
        (itemAt? source child).map fun item => (item, taken source locals groups child) := by
  induction parts generalizing seen with
  | nil => rfl
  | cons t rest ih =>
      rw [alongside, List.filterMap_cons, List.filterMap_cons, ← ih, itemAt?]
      dsimp only
      split_ifs with hattribute
      · rw [left_concat_of_isAttribute locals groups seen hattribute]
        rfl
      · exact assign_left_cons locals groups seen _ _
      · exact assign_left_cons locals groups seen _ _

end Assign

/-- The `impl` blocks that a child takes up, given the children before it: all blocks for a type,
if no child before it takes them up. -/
def blocksAt (source : List Char) (parts : List ParseTree) (child : List ParseTree × ParseTree) :
    List ParseTree :=
  match claim? source (localTypes source parts) child.2 with
  | some target =>
    if claimed source (localTypes source parts) child.1 target then []
    else implsOf source target parts
  | none => []

theorem assignedItems_eq (container : ParseTree) :
    assignedItems source container = (alongside [] container.parts).filterMap fun child =>
      (itemAt? source child).map fun item =>
        (item, groupOf? source (blocksAt source container.parts child)) := by
  have hleft : left source (localTypes source container.parts)
      (implGroups source container.parts) [] = implGroups source container.parts :=
    List.filter_eq_self.mpr fun group _ => rfl
  have htaken : ∀ child, taken source (localTypes source container.parts)
      (implGroups source container.parts) child =
        groupOf? source (blocksAt source container.parts child) := by
    intro child
    simp only [taken, find?_implGroups, blocksAt]
    cases claim? source (localTypes source container.parts) child.2 with
    | none => rfl
    | some target =>
        dsimp only [Option.bind_some]
        split_ifs <;> rfl
  have hassign := @assign_left source (localTypes source container.parts)
    (implGroups source container.parts) [] container.parts
  rw [hleft] at hassign
  simpa only [assignedItems, itemsOf_eq, htaken] using hassign

/-! ## Items, from the children before them -/

/-- The nodes of an item with some `impl` blocks. -/
def lowered (source : List Char) (item : Item) (blocks : List ParseTree) : List Node :=
  itemNodes source (item, groupOf? source blocks)

/-- The nodes of a child as an item, given the children before it. -/
def itemShare (source : List Char) (parts before : List ParseTree) (t : ParseTree) : List Node :=
  lowered source ⟨(dialect source).attributesBefore before, t⟩ (blocksAt source parts (before, t))

theorem items_eq_arrange (container : ParseTree) :
    items source container =
      arrange ((dialect source).pieces (itemShare source container.parts) [] container.parts) := by
  rw [items_eq_itemNodes, assignedItems_eq, List.map_filterMap, Dialect.pieces]
  congr 1
  refine List.filterMap_congr fun child _ => ?_
  rw [Option.map_map]
  exact map_itemAt?
    (fun item => itemNodes source (item, groupOf? source (blocksAt source container.parts child)))
    child

/-! ## Nodes as elements become them -/

section Fresh

variable {item : Item}

theorem function?_fresh (forced : Option Visibility) (extra : Function → Option Modifier) :
    ∀ node ∈ ((function? source forced item).map (functionNode extra)).toList,
      (dialect source).Fresh item.attributes node := by
  apply forall_mem_toList_map
  intro f hf
  obtain ⟨name, -, rfl⟩ := Option.map_eq_some_iff.mp hf
  exact ⟨rfl, nofun, fun _ => rfl⟩

theorem constant?_fresh (forced : Option Visibility) :
    ∀ node ∈ (constant? source forced item).toList, (dialect source).Fresh item.attributes node :=
  forall_mem_toList_map fun _ _ => ⟨rfl, nofun, fun _ => rfl⟩

theorem typeAlias?_fresh (forced : Option Visibility) :
    ∀ node ∈ (typeAlias? source forced item.tree).toList,
      (dialect source).Fresh item.attributes node := by
  intro node hnode
  obtain ⟨found, hdoc, -, rfl⟩ := exists_of_typeAlias? (Option.mem_toList.mp hnode)
  exact ⟨hdoc, nofun, by simp [dialect, Node.kind, Leaf.kind]⟩

theorem traitMember_fresh :
    ∀ node ∈ traitMember source item, (dialect source).Fresh item.attributes node := by
  unfold traitMember
  apply forall_mem_ite (function?_fresh _ _)
  exact forall_mem_ite (constant?_fresh _) (List.forall_mem_nil _)

theorem implMember_fresh (ofTrait : Bool) :
    ∀ node ∈ implMember source ofTrait item, (dialect source).Fresh item.attributes node := by
  unfold implMember
  apply forall_mem_ite (function?_fresh _ _)
  apply forall_mem_ite (constant?_fresh _)
  exact forall_mem_ite (typeAlias?_fresh _) (List.forall_mem_nil _)

theorem declared_fresh {name? : Option (List Char)} {declared : List Char → TypeHead × List Node}
    (group : Option ImplGroup)
    (h : ∀ name, (declared name).1.doc = none ∧ (declared name).1.decorators = item.attributes) :
    ∀ node ∈ ((name?.map declared).map (merged group)).toList,
      (dialect source).Fresh item.attributes node := by
  apply forall_mem_toList_map
  intro found hfound
  obtain ⟨name, -, rfl⟩ := Option.map_eq_some_iff.mp hfound
  cases group <;> exact ⟨(h name).1, nofun, fun _ => (h name).2⟩

theorem plainItem_fresh (group : Option ImplGroup) :
    ∀ node ∈ plainItem source item group, (dialect source).Fresh item.attributes node := by
  unfold plainItem
  dsimp only
  apply forall_mem_ite
  · exact forall_mem_toList_map fun _ _ => ⟨rfl, nofun, by simp [dialect, Node.kind, Leaf.kind]⟩
  apply forall_mem_ite
  · exact forall_mem_toList_map fun _ _ => ⟨rfl, nofun, by simp [dialect, Node.kind, Leaf.kind]⟩
  apply forall_mem_ite
  · exact declared_fresh group fun _ => ⟨rfl, rfl⟩
  apply forall_mem_ite
  · exact declared_fresh group fun _ => ⟨rfl, rfl⟩
  apply forall_mem_ite
  · exact declared_fresh none fun _ => ⟨rfl, rfl⟩
  apply forall_mem_ite
  · exact forall_mem_toList_map fun _ _ =>
      ⟨rfl, nofun, by simp [dialect, foreignType, Node.kind, Head.kind]⟩
  apply forall_mem_ite (function?_fresh _ _)
  apply forall_mem_ite (typeAlias?_fresh _)
  exact forall_mem_ite (constant?_fresh _) (List.forall_mem_nil _)

theorem lowered_fresh (blocks : List ParseTree) :
    ∀ node ∈ lowered source item blocks, (dialect source).Fresh item.attributes node := by
  unfold lowered itemNodes
  refine forall_mem_ite (List.forall_mem_nil _) ?_
  refine forall_mem_ite ?_ (plainItem_fresh _)
  intro node hnode
  obtain ⟨name, -, rfl⟩ := List.mem_map.mp hnode
  split
  · exact ⟨rfl, nofun, by simp [dialect, Node.kind, Head.kind]⟩
  · exact ⟨rfl, nofun, by simp [dialect, Node.kind, Leaf.kind]⟩

end Fresh

/-! ## Bodies -/

theorem laidOut_items (container : ParseTree) :
    (dialect source).LaidOut (itemShare source container.parts) [] container.parts
      (items source container) := by
  rw [items_eq_arrange]
  exact Dialect.laidOut_arrange (fun _ _ => lowered_fresh _) container.parts

theorem laidOut_implBody (ofTrait : Bool) (body : ParseTree) :
    (dialect source).LaidOut
      (fun before t => implMember source ofTrait ⟨(dialect source).attributesBefore before, t⟩) []
      body.parts (implBody source ofTrait body) := by
  rw [implBody, pieces_itemsOf]
  exact Dialect.laidOut_arrange (fun _ _ => implMember_fresh ofTrait) body.parts

theorem laidOut_traitBody (body : ParseTree) :
    (dialect source).LaidOut
      (fun before t => traitMember source ⟨(dialect source).attributesBefore before, t⟩) []
      body.parts (traitBody source body) := by
  rw [traitBody, pieces_itemsOf]
  exact Dialect.laidOut_arrange (fun _ _ => traitMember_fresh) body.parts

end Precis.Rust
