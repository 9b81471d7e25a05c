import Precis.Proofs.Siblings.Rust

/-! # Where the members of `impl` blocks go

All `impl` blocks for a type go to one item of their container, whole and in order: to the first
declaration of the type, or else to the first of the blocks, which becomes a class. -/

namespace Precis.Rust

variable {source : List Char}

/-! ## Shares -/

/-- An item of a container with the `impl` blocks that are merged into it. -/
structure Share where
  item : Item
  blocks : List ParseTree

/-- The nodes of an item with the `impl` blocks that are merged into it. -/
def Share.nodes (source : List Char) (s : Share) : List Node :=
  lowered source s.item s.blocks

/-- Whether an item declares the type with a name. -/
def declares (source target : List Char) (t : ParseTree) : Bool :=
  declaresType t && t.textOf? "name" source == some target

/-- The declaration of a type with its own members. -/
def declaration? (source : List Char) (item : Item) : Option (TypeHead × List Node) :=
  if item.tree.kind = "enum_item" then enum? source item else struct? source item

/-- Whether a node is a class with a name. -/
def isClassOf (target : List Char) (node : Node) : Bool :=
  node.kind == .type .classType && node.name? == some (String.ofList target)

/-- A share that is a type declaration, with the members of some `impl` blocks behind its own and
the traits of these blocks. -/
def Share.Holds (source : List Char) (s : Share) (blocks : List ParseTree) : Prop :=
  ∃ head own, declaration? source s.item = some (head, own) ∧
    s.nodes source =
      [.branch (.type { head with interfaces := traitsOf source blocks })
        (own ++ membersOf source blocks)]

/-- A share that is a class which stands for a type declared elsewhere. -/
def Share.StandsFor (source target : List Char) (s : Share) (blocks : List ParseTree) : Prop :=
  s.nodes source =
    [.branch
      (.type
        { kind := .classType
          name := String.ofList target
          visibility := .pub
          typeParameters := typeParameters source s.item.tree
          interfaces := traitsOf source blocks
          location := s.item.tree.location source })
      (membersOf source blocks)]

/-- One share takes all of some `impl` blocks for a type, and the others have no block for it. -/
structure Owns (source target : List Char) (blocks : List ParseTree) (share : Share)
    (others : List Share) : Prop where
  all : share.blocks = blocks
  none : ∀ other ∈ others, ∀ block ∈ other.blocks, isImplOf source target block = false

/-- Where the `impl` blocks for a type go. -/
structure Gathers (source target : List Char) (blocks : List ParseTree) (shares : List Share) :
    Prop where
  /-- If the type is declared, they go to its first declaration. -/
  declared : ∀ before share after, shares = before ++ share :: after →
    declares source target share.item.tree = true →
    (∀ s ∈ before, declares source target s.item.tree = false) →
      Owns source target blocks share (before ++ after) ∧ share.Holds source blocks ∧
      (∀ later ∈ after, declares source target later.item.tree = true → later.Holds source []) ∧
      (shares.flatMap (Share.nodes source)).filter (isClassOf target) = []
  /-- Otherwise they become the only class with that name, in the place of the first block. -/
  foreign : (∀ s ∈ shares, declares source target s.item.tree = false) →
    ∀ before share after, shares = before ++ share :: after →
      isImplOf source target share.item.tree = true →
      (∀ s ∈ before, isImplOf source target s.item.tree = false) →
        Owns source target blocks share (before ++ after) ∧
        share.StandsFor source target blocks ∧
        (shares.flatMap (Share.nodes source)).filter (isClassOf target) = share.nodes source

/-! ## The shares of a container -/

/-- The share of a child, given the children before it. -/
def shareAt (source : List Char) (parts : List ParseTree) (child : List ParseTree × ParseTree) :
    Share where
  item := ⟨(dialect source).attributesBefore child.1, child.2⟩
  blocks := blocksAt source parts child

/-- The shares of the children of a container. -/
def sharesOf (source : List Char) (parts : List ParseTree) : List Share :=
  (alongside [] parts).map (shareAt source parts)

@[simp] theorem tree_shareAt (parts : List ParseTree) (child : List ParseTree × ParseTree) :
    (shareAt source parts child).item.tree = child.2 :=
  rfl

theorem map_tree_sharesOf (parts : List ParseTree) :
    (sharesOf source parts).map (fun s => s.item.tree) = parts := by
  rw [sharesOf, List.map_map]
  exact map_snd_alongside [] parts

theorem lowered_of_not_isElement {item : Item} (blocks : List ParseTree)
    (h : ¬ (dialect source).isElement item.tree = true) : lowered source item blocks = [] := by
  by_cases hcomment : isComment item.tree = true
  · rw [lowered, itemNodes, if_pos hcomment]
  · have hkind : item.tree.kind = "attribute_item" := by
      simpa [Dialect.isElement, hcomment, isAttribute] using h
    simp [lowered, itemNodes, plainItem, isComment, hkind]

/-- Apart from comments, the nodes of a container are those of its shares. -/
theorem undocumented_items (container : ParseTree) :
    undocumented (items source container) =
      (sharesOf source container.parts).flatMap (Share.nodes source) := by
  rw [Dialect.undocumented_of_laidOut (fun _ _ => lowered_fresh _) (laidOut_items container),
    sharesOf, List.flatMap_map]
  refine List.flatMap_congr fun child _ => ?_
  split_ifs with helement
  · rfl
  · exact (lowered_of_not_isElement _ helement).symm

/-! ## Who takes the blocks for a type -/

theorem mem_localTypes {parts : List ParseTree} {target : List Char} :
    target ∈ localTypes source parts ↔ ∃ t ∈ parts, declares source target t = true := by
  simp [localTypes, declares, and_assoc]

theorem isImplOf_unique {target other : List Char} {t : ParseTree}
    (h : isImplOf source target t = true) (h' : isImplOf source other t = true) :
    target = other := by
  simp only [isImplOf, Bool.and_eq_true, beq_iff_eq] at h h'
  exact Option.some.inj (h.2.symm.trans h'.2)

/-- An item has blocks only for the type that it claims, and that no item before it claims. -/
theorem exists_of_mem_blocksAt {parts : List ParseTree} {child : List ParseTree × ParseTree}
    {block : ParseTree} (h : block ∈ blocksAt source parts child) :
    ∃ target, isImplOf source target block = true ∧
      claim? source (localTypes source parts) child.2 = some target ∧
      claimed source (localTypes source parts) child.1 target = false := by
  unfold blocksAt at h
  split at h
  · rename_i target hclaim
    split_ifs at h with hclaimed
    · cases h
    · exact ⟨target, (List.mem_filter.mp h).2, hclaim, by simpa using hclaimed⟩
  · cases h

/-- The first item that claims the blocks for a type takes all of them. -/
theorem owns_of_claim? {parts : List ParseTree} {target : List Char} {before after : List Share}
    {share : Share} (hshares : sharesOf source parts = before ++ share :: after)
    (hclaim : claim? source (localTypes source parts) share.item.tree = some target)
    (hbefore : ∀ s ∈ before, claim? source (localTypes source parts) s.item.tree ≠ some target) :
    Owns source target (implsOf source target parts) share (before ++ after) := by
  obtain ⟨front, t, back, -, rfl, rfl, rfl⟩ := map_alongside_eq_append_cons hshares
  have hfront : claimed source (localTypes source parts) front target = false := by
    rw [claimed, List.any_eq_false]
    intro u hu
    rw [← map_snd_alongside [] front, List.mem_map] at hu
    obtain ⟨child, hchild, rfl⟩ := hu
    simpa using hbefore _ (List.mem_map_of_mem hchild)
  constructor
  · rw [tree_shareAt] at hclaim
    simp [shareAt, blocksAt, hclaim, hfront]
  · intro other hother block hblock
    by_contra htarget
    rw [Bool.not_eq_false] at htarget
    rcases List.mem_append.mp hother with hother | hother
    · obtain ⟨child, hchild, rfl⟩ := List.mem_map.mp hother
      obtain ⟨found, hfound, hchildClaim, -⟩ := exists_of_mem_blocksAt hblock
      rw [isImplOf_unique hfound htarget] at hchildClaim
      exact hbefore _ (List.mem_map_of_mem hchild) hchildClaim
    · -- The owner stands before this item, so that the blocks are claimed already.
      obtain ⟨⟨seen, u⟩, hchild, rfl⟩ := List.mem_map.mp hother
      obtain ⟨between, -, rfl, -⟩ := mem_alongside hchild
      obtain ⟨found, hfound, -, hclaimed⟩ := exists_of_mem_blocksAt hblock
      rw [isImplOf_unique hfound htarget, claimed, List.any_eq_false] at hclaimed
      exact hclaimed t (by simp) (by simpa using hclaim)

/-- A declared type is claimed by its declarations and by no block. -/
theorem claim?_iff_of_mem {locals : List (List Char)} {target : List Char} {t : ParseTree}
    (h : target ∈ locals) :
    claim? source locals t = some target ↔ declares source target t = true := by
  rw [claim?, declares]
  split_ifs with hdeclares
  · simp [hdeclares]
  · simpa [hdeclares, Option.filter_eq_some_iff] using fun _ => h
  · simp [hdeclares]

/-- A type that is declared elsewhere is claimed by the blocks for it. -/
theorem claim?_iff_of_not_mem {locals : List (List Char)} {target : List Char} {t : ParseTree}
    (h : target ∉ locals) (ht : declares source target t = false) :
    claim? source locals t = some target ↔ isImplOf source target t = true := by
  rw [claim?, isImplOf]
  split_ifs with hdeclares himpl
  · have hname : ¬ t.textOf? "name" source = some target := by
      simpa [declares, hdeclares] using ht
    have hkind : ¬ t.kind = "impl_item" := by
      intro himpl
      simp [declaresType, himpl] at hdeclares
    simp [hname, hkind]
  · simpa [himpl, Option.filter_eq_some_iff] using fun _ => h
  · simp [himpl]

/-! ## The nodes of a share -/

theorem merged_groupOf? (blocks : List ParseTree) (head : TypeHead) (own : List Node) :
    merged (groupOf? source blocks) (head, own) =
      .branch (.type { head with interfaces := head.interfaces ++ traitsOf source blocks })
        (own ++ membersOf source blocks) := by
  cases blocks with
  | nil => simp [groupOf?, merged, traitsOf, membersOf]
  | cons first rest => rfl

theorem holds_of_declares {target : List Char} {s : Share}
    (h : declares source target s.item.tree = true) : s.Holds source s.blocks := by
  simp only [declares, declaresType, Bool.and_eq_true, Bool.or_eq_true, beq_iff_eq] at h
  obtain ⟨(hkind | hkind) | hkind, hname⟩ := h
  all_goals
    rw [Share.Holds, declaration?, Share.nodes, lowered]
    simp [hkind, itemNodes, plainItem, isComment, struct?, enum?, hname, merged_groupOf?, typeHead]

theorem kind_ne_class_of_declared {name? : Option (List Char)}
    {declared : List Char → TypeHead × List Node} (group : Option ImplGroup)
    (h : ∀ name, (declared name).1.kind ≠ .classType) :
    ∀ node ∈ ((name?.map declared).map (merged group)).toList, node.kind ≠ .type .classType := by
  apply forall_mem_toList_map
  intro found hfound
  obtain ⟨name, -, rfl⟩ := Option.map_eq_some_iff.mp hfound
  cases group <;> simpa [merged, Node.kind, Head.kind] using h name

theorem kind_ne_class_of_plainItem {item : Item} (group : Option ImplGroup)
    (h : item.tree.kind ≠ "impl_item") :
    ∀ node ∈ plainItem source item group, node.kind ≠ .type .classType := by
  unfold plainItem
  dsimp only
  rw [if_neg h]
  apply forall_mem_ite
  · exact forall_mem_toList_map fun _ _ => nofun
  apply forall_mem_ite
  · exact forall_mem_toList_map fun _ _ => nofun
  apply forall_mem_ite
  · exact kind_ne_class_of_declared group fun _ => nofun
  apply forall_mem_ite
  · exact kind_ne_class_of_declared group fun _ => nofun
  apply forall_mem_ite
  · exact kind_ne_class_of_declared none fun _ => nofun
  apply forall_mem_ite
  · exact forall_mem_toList_map fun _ _ => nofun
  apply forall_mem_ite
  · intro node hnode
    obtain ⟨found, -, -, rfl⟩ := exists_of_typeAlias? (Option.mem_toList.mp hnode)
    exact nofun
  apply forall_mem_ite
  · exact forall_mem_toList_map fun _ _ => nofun
  · exact List.forall_mem_nil _

/-- Only `impl` blocks become classes. -/
theorem kind_ne_class_of_lowered {item : Item} (blocks : List ParseTree)
    (h : item.tree.kind ≠ "impl_item") :
    ∀ node ∈ lowered source item blocks, node.kind ≠ .type .classType := by
  unfold lowered itemNodes
  refine forall_mem_ite (List.forall_mem_nil _) (forall_mem_ite ?_ ?_)
  · intro node hnode
    obtain ⟨name, -, rfl⟩ := List.mem_map.mp hnode
    split
    · exact nofun
    · exact nofun
  · exact kind_ne_class_of_plainItem _ h

theorem lowered_of_impl {item : Item} (blocks : List ParseTree)
    (h : item.tree.kind = "impl_item") :
    lowered source item blocks = ((groupOf? source blocks).map foreignType).toList := by
  simp [lowered, itemNodes, plainItem, isComment, h]

/-- A class has the name of the type that its first block is for. -/
theorem exists_block_of_isClassOf {target : List Char} {s : Share} {node : Node}
    (hnode : node ∈ s.nodes source) (hclass : isClassOf target node = true) :
    ∃ first ∈ s.blocks, (implTarget? source first).getD [] = target := by
  rw [isClassOf, Bool.and_eq_true, beq_iff_eq, beq_iff_eq] at hclass
  obtain ⟨hkind, hname⟩ := hclass
  have himpl : s.item.tree.kind = "impl_item" := by
    by_contra h
    exact kind_ne_class_of_lowered s.blocks h node hnode hkind
  rw [Share.nodes, lowered_of_impl _ himpl, Option.mem_toList, Option.map_eq_some_iff] at hnode
  obtain ⟨group, hgroup, rfl⟩ := hnode
  obtain ⟨first, hfirst, rfl⟩ := Option.map_eq_some_iff.mp hgroup
  exact ⟨first, List.mem_of_mem_head? hfirst, String.ofList_injective (Option.some.inj hname)⟩

/-- Without a block for a type there is no class with its name. -/
theorem filter_isClassOf_of_none {parts : List ParseTree} {target : List Char} {s : Share}
    (hs : s ∈ sharesOf source parts)
    (h : ∀ block ∈ s.blocks, isImplOf source target block = false) :
    (s.nodes source).filter (isClassOf target) = [] := by
  rw [List.filter_eq_nil_iff]
  intro node hnode hclass
  obtain ⟨first, hfirst, htarget⟩ := exists_block_of_isClassOf hnode hclass
  obtain ⟨child, -, rfl⟩ := List.mem_map.mp hs
  obtain ⟨found, hfound, -⟩ := exists_of_mem_blocksAt hfirst
  have himpl : implTarget? source first = some found := by
    simpa using (Bool.and_eq_true_iff.mp hfound).2
  rw [himpl, Option.getD_some] at htarget
  rw [htarget, h first hfirst] at hfound
  cases hfound

/-- The classes with the name of a type are those of the share that takes the blocks for it. -/
theorem filter_isClassOf_of_owns {parts : List ParseTree} {target : List Char}
    {blocks : List ParseTree} {before after : List Share} {share : Share}
    (hshares : sharesOf source parts = before ++ share :: after)
    (h : Owns source target blocks share (before ++ after)) :
    ((sharesOf source parts).flatMap (Share.nodes source)).filter (isClassOf target) =
      (share.nodes source).filter (isClassOf target) := by
  have hothers : ∀ s ∈ before ++ after, (s.nodes source).filter (isClassOf target) = [] := by
    intro s hs
    refine @filter_isClassOf_of_none source parts target s ?_ (h.none s hs)
    rw [hshares]
    exact ((List.sublist_cons_self share after).append_left before).mem hs
  rw [List.forall_mem_append] at hothers
  rw [hshares, List.filter_flatMap, List.flatMap_append, List.flatMap_cons,
    List.flatMap_eq_nil_iff.mpr hothers.1, List.flatMap_eq_nil_iff.mpr hothers.2,
    List.nil_append, List.append_nil]

/-- The first block for a type that is declared elsewhere becomes the class for it. -/
theorem standsFor_of_impl {parts : List ParseTree} {target : List Char} {before after : List Share}
    {share : Share} (hshares : sharesOf source parts = before ++ share :: after)
    (himpl : isImplOf source target share.item.tree = true)
    (hbefore : ∀ s ∈ before, isImplOf source target s.item.tree = false)
    (hblocks : share.blocks = implsOf source target parts) :
    share.StandsFor source target (implsOf source target parts) := by
  obtain ⟨rest, hfirst⟩ : ∃ rest, implsOf source target parts = share.item.tree :: rest := by
    have hnone : (before.map fun s => s.item.tree).filter (isImplOf source target) = [] := by
      simpa using hbefore
    rw [← @map_tree_sharesOf source parts, hshares, implsOf, List.map_append, List.map_cons,
      List.filter_append, hnone, List.nil_append, List.filter_cons_of_pos himpl]
    exact ⟨_, rfl⟩
  simp only [isImplOf, Bool.and_eq_true, beq_iff_eq] at himpl
  rw [Share.StandsFor, Share.nodes, lowered_of_impl _ himpl.1, hblocks, hfirst]
  simp [groupOf?, foreignType, himpl.2]

/-! ## The blocks for a type -/

theorem mem_parts_of_mem_sharesOf {parts : List ParseTree} {s : Share}
    (h : s ∈ sharesOf source parts) : s.item.tree ∈ parts := by
  rw [← @map_tree_sharesOf source parts]
  exact List.mem_map_of_mem h

/-- An item that claims a type has no other blocks than those for it. -/
theorem isImplOf_of_mem_blocks {parts : List ParseTree} {target : List Char} {s : Share}
    (hs : s ∈ sharesOf source parts)
    (hclaim : claim? source (localTypes source parts) s.item.tree = some target) :
    ∀ block ∈ s.blocks, isImplOf source target block = true := by
  intro block hblock
  obtain ⟨child, -, rfl⟩ := List.mem_map.mp hs
  obtain ⟨found, hfound, hclaimed, -⟩ := exists_of_mem_blocksAt hblock
  obtain rfl : target = found := Option.some.inj (hclaim.symm.trans hclaimed)
  exact hfound

theorem gathers_sharesOf (target : List Char) (parts : List ParseTree) :
    Gathers source target (implsOf source target parts) (sharesOf source parts) where
  declared := by
    intro before share after hshares hdeclares hbefore
    have hshare : share ∈ sharesOf source parts := by simp [hshares]
    have hlocal : target ∈ localTypes source parts :=
      mem_localTypes.mpr ⟨_, mem_parts_of_mem_sharesOf hshare, hdeclares⟩
    have howns : Owns source target (implsOf source target parts) share (before ++ after) := by
      refine owns_of_claim? hshares ((claim?_iff_of_mem hlocal).mpr hdeclares) ?_
      intro s hs hclaim
      rw [claim?_iff_of_mem hlocal, hbefore s hs] at hclaim
      cases hclaim
    refine ⟨howns, howns.all ▸ holds_of_declares hdeclares, ?_, ?_⟩
    · intro later hlater hname
      have hmem : later ∈ sharesOf source parts := by simp [hshares, hlater]
      have hown := isImplOf_of_mem_blocks hmem ((claim?_iff_of_mem hlocal).mpr hname)
      have hnone : later.blocks = [] := by
        rw [List.eq_nil_iff_forall_not_mem]
        intro block hblock
        have hother := howns.none later (List.mem_append_right before hlater) block hblock
        rw [hown block hblock] at hother
        cases hother
      exact hnone ▸ holds_of_declares hname
    · rw [filter_isClassOf_of_owns hshares howns, List.filter_eq_nil_iff]
      intro node hnode hclass
      have hkind : share.item.tree.kind ≠ "impl_item" := by
        intro himpl
        simp [declares, declaresType, himpl] at hdeclares
      refine kind_ne_class_of_lowered share.blocks hkind node hnode ?_
      simpa using (Bool.and_eq_true_iff.mp hclass).1
  foreign := by
    intro hnone before share after hshares himpl hbefore
    have hlocal : target ∉ localTypes source parts := by
      rw [mem_localTypes, ← @map_tree_sharesOf source parts]
      simpa using hnone
    have howns : Owns source target (implsOf source target parts) share (before ++ after) := by
      have hshare : share ∈ sharesOf source parts := by simp [hshares]
      refine owns_of_claim? hshares
        ((claim?_iff_of_not_mem hlocal (hnone share hshare)).mpr himpl) ?_
      intro s hs hclaim
      have hmem : s ∈ sharesOf source parts := by simp [hshares, hs]
      rw [claim?_iff_of_not_mem hlocal (hnone s hmem), hbefore s hs] at hclaim
      cases hclaim
    have hstands := standsFor_of_impl hshares himpl hbefore howns.all
    refine ⟨howns, hstands, ?_⟩
    rw [filter_isClassOf_of_owns hshares howns, hstands]
    simp [isClassOf, Node.kind, Head.kind, Node.name?, Head.name]

/-- The nodes of a container come from shares of its children, and the `impl` blocks for each type
go to one of them. -/
theorem items_gather_implBlocks (source : List Char) (container : ParseTree) :
    ∃ shares : List Share, shares.map (fun s => s.item.tree) = container.parts ∧
      undocumented (items source container) = shares.flatMap (Share.nodes source) ∧
      ∀ target, Gathers source target (implsOf source target container.parts) shares :=
  ⟨sharesOf source container.parts, map_tree_sharesOf container.parts,
    undocumented_items container, fun target => gathers_sharesOf target container.parts⟩

end Precis.Rust
