import Precis.Frontend
import Precis.Proofs.Naming.Declarations
import Precis.Proofs.Naming.Segments
import Precis.Proofs.Siblings.Merging

/-! # Names in Rust outlines

Declarations take their names from nodes of the parse tree, with one exception: the class that
stands for a type declared elsewhere is called after what its `impl` blocks are for. If every node
of the parse tree covers some text, a name can therefore be missing only there. -/

namespace Precis

/-- Every node of a parse tree covers some text other than white space. -/
def ParseTree.Legible (source : List Char) (t : ParseTree) : Prop :=
  t.Throughout fun u => Text.allBlank (u.text source) = false

namespace Rust

open Node

variable {source : List Char}

/-- A container of items in another: the container itself, and the body of each module in it. -/
inductive Scope : ParseTree → ParseTree → Prop where
  | self (container : ParseTree) : Scope container container
  | inside {container t body scope : ParseTree} (ht : t ∈ container.parts)
      (hkind : t.kind = "mod_item") (hname : (t.child? "name").isSome)
      (hbody : t.child? "body" = some body) (h : Scope body scope) : Scope container scope

/-! ## Names that stand in the source -/

theorem ne_empty_of_textOf? {t : ParseTree} {role : String} {name : List Char}
    (ht : t.Legible source) (h : t.textOf? role source = some name) :
    String.ofList name ≠ "" := by
  obtain ⟨c, hc, rfl⟩ := Option.map_eq_some_iff.mp h
  have hvisible : Text.allBlank (c.text source) = false := (ht.child? hc).here
  intro hempty
  rw [← String.toList_eq_nil_iff, String.toList_ofList] at hempty
  rw [hempty] at hvisible
  cases hvisible

/-- A node that is called by a name from the source. -/
theorem named_of_textOf? {t : ParseTree} {role : String} {f : List Char → Node}
    (ht : t.Legible source)
    (hf : ∀ name, String.ofList name ≠ "" → Everywhere Label.Named [f name]) :
    Everywhere Label.Named ((t.textOf? role source).map f).toList := by
  apply everywhere_toList
  intro node hnode
  obtain ⟨name, hname, rfl⟩ := Option.map_eq_some_iff.mp hnode
  exact hf name (ne_empty_of_textOf? ht hname)

theorem named_leaf {item : Leaf} (h : Label.Named (.leaf item)) :
    Everywhere Label.Named [.leaf item] :=
  everywhere_leaf_cons.mpr ⟨h, everywhere_nil⟩

theorem named_branch {head : Head} {children : List Node} (hhead : Label.Named (.head head))
    (hchildren : Everywhere Label.Named children) :
    Everywhere Label.Named [.branch head children] :=
  everywhere_branch_cons.mpr ⟨hhead, hchildren, everywhere_nil⟩

/-! ## Members -/

theorem named_commentPiece (t : ParseTree) :
    Everywhere Label.Named (commentPiece source t).nodes := by
  unfold commentPiece
  dsimp only
  split
  · exact everywhere_nil
  · exact named_leaf trivial

/-- A body of comments, attributes and elements has names if its elements have. -/
theorem named_pieces {parts : List ParseTree} {nodes : Item → List Node}
    (hparts : ∀ t ∈ parts, t.Legible source)
    (h : ∀ item : Item, item.tree.Legible source → Everywhere Label.Named (nodes item)) :
    Everywhere Label.Named (arrange (pieces source nodes (itemsOf source parts))) := by
  rw [named_arrange_iff, pieces, List.forall_mem_map]
  intro item hitem
  split_ifs
  · exact named_commentPiece item.tree
  · exact h item (hparts item.tree (mem_of_mem_withAttributes hitem))

theorem named_function? (forced : Option Visibility) (extra : Function → Option Modifier)
    {item : Item} (ht : item.tree.Legible source) :
    Everywhere Label.Named ((function? source forced item).map (functionNode extra)).toList := by
  rw [function?, Option.map_map]
  exact named_of_textOf? ht fun _ hname => named_leaf hname

theorem named_constant? (forced : Option Visibility) {item : Item}
    (ht : item.tree.Legible source) :
    Everywhere Label.Named (constant? source forced item).toList :=
  named_of_textOf? ht fun _ hname => named_leaf hname

theorem named_typeAlias? (forced : Option Visibility) {t : ParseTree} (ht : t.Legible source) :
    Everywhere Label.Named (typeAlias? source forced t).toList := by
  apply everywhere_toList
  intro node hnode
  simp only [typeAlias?, Option.bind_eq_bind, Option.bind_eq_some_iff] at hnode
  obtain ⟨name, hname, target, -, hnode⟩ := hnode
  obtain rfl := Option.some.inj hnode
  exact named_leaf (ne_empty_of_textOf? ht hname)

theorem named_tupleFieldsFrom (position : Nat) (visibility : Visibility)
    (parts : List ParseTree) :
    Everywhere Label.Named (tupleFieldsFrom source position visibility parts) := by
  induction parts generalizing position visibility with
  | nil => exact everywhere_nil
  | cons t rest ih =>
      rw [tupleFieldsFrom]
      split_ifs
      · exact ih _ _
      · exact ih _ _
      · refine everywhere_leaf_cons.mpr ⟨?_, ih _ _⟩
        have hdigits : toString position ≠ "" := by simp
        exact hdigits

theorem named_structFields {t : ParseTree} (ht : t.Legible source) :
    Everywhere Label.Named (structFields source t) := by
  unfold structFields
  split
  · rename_i body hbody
    apply everywhere_ite
    · apply named_pieces
      · intro part hpart
        exact (ht.child? hbody).part (List.mem_filter.mp hpart).1
      · intro item hitem
        exact named_of_textOf? hitem fun _ hname => named_leaf hname
    apply everywhere_ite
    · exact named_tupleFieldsFrom _ _ _
    · exact everywhere_nil
  · exact everywhere_nil

theorem named_variants (enumName : List Char) {t : ParseTree} (ht : t.Legible source) :
    Everywhere Label.Named (variants source enumName t) := by
  unfold variants
  split
  · rename_i body hbody
    rw [named_arrange_iff, List.forall_mem_map]
    intro part hpart
    split_ifs
    · exact named_commentPiece part
    · have hlegible := (ht.child? hbody).part (List.mem_filter.mp hpart).1
      exact named_of_textOf? hlegible fun _ hname => named_leaf hname
  · exact everywhere_nil

theorem named_traitMembers {t : ParseTree} (ht : t.Legible source) :
    Everywhere Label.Named (traitMembers source t) := by
  unfold traitMembers traitBody
  split
  · rename_i body hbody
    apply named_pieces
    · exact fun part hpart => (ht.child? hbody).part hpart
    intro item hitem
    unfold traitMember
    apply everywhere_ite
    · exact named_function? _ _ hitem
    apply everywhere_ite
    · exact named_constant? _ hitem
    · exact everywhere_nil
  · exact everywhere_nil

theorem named_implMembers (ofTrait : Bool) {t : ParseTree} (ht : t.Legible source) :
    Everywhere Label.Named (implMembers source ofTrait t) := by
  unfold implMembers implBody
  split
  · rename_i body hbody
    apply named_pieces
    · exact fun part hpart => (ht.child? hbody).part hpart
    intro item hitem
    unfold implMember
    apply everywhere_ite
    · exact named_function? _ _ hitem
    apply everywhere_ite
    · exact named_constant? _ hitem
    apply everywhere_ite
    · exact named_typeAlias? _ hitem
    · exact everywhere_nil
  · exact everywhere_nil

/-! ## Items -/

/-- What `impl` blocks contribute to a type has names. -/
theorem named_groupOf? {blocks : List ParseTree} (hblocks : ∀ t ∈ blocks, t.Legible source) :
    ∀ group ∈ groupOf? source blocks, Everywhere Label.Named group.members := by
  intro group hgroup
  obtain ⟨first, -, rfl⟩ := Option.map_eq_some_iff.mp hgroup
  exact everywhere_flatMap fun t ht => named_implMembers _ (hblocks t ht)

/-- A type declaration that is called by a name from the source. -/
theorem named_merged {t : ParseTree} {declared : List Char → TypeHead × List Node}
    {group : Option ImplGroup} (ht : t.Legible source)
    (hgroup : ∀ g ∈ group, Everywhere Label.Named g.members)
    (hname : ∀ name, (declared name).1.name = String.ofList name)
    (hown : ∀ name, Everywhere Label.Named (declared name).2) :
    Everywhere Label.Named
      (((t.textOf? "name" source).map declared).map (merged group)).toList := by
  rw [Option.map_map]
  apply named_of_textOf? ht
  intro name hne
  rw [← hname] at hne
  cases group with
  | none => exact named_branch hne (hown name)
  | some g =>
      exact named_branch hne (everywhere_append.mpr ⟨hown name, hgroup g rfl⟩)

/-- Apart from the classes that stand for types declared elsewhere, items have names. -/
theorem named_plainItem {item : Item} {group : Option ImplGroup}
    (ht : item.tree.Legible source) (hgroup : ∀ g ∈ group, Everywhere Label.Named g.members)
    (htarget : ∀ g ∈ group, g.target ≠ []) :
    Everywhere Label.Named (plainItem source item group) := by
  unfold plainItem
  dsimp only
  apply everywhere_ite
  · exact named_of_textOf? ht fun _ _ => named_leaf trivial
  apply everywhere_ite
  · exact named_of_textOf? ht fun _ _ => named_leaf trivial
  apply everywhere_ite
  · exact named_merged ht hgroup (fun _ => rfl) fun _ => named_structFields ht
  apply everywhere_ite
  · exact named_merged ht hgroup (fun _ => rfl) fun name => named_variants name ht
  apply everywhere_ite
  · exact named_merged ht (by simp) (fun _ => rfl) fun _ => named_traitMembers ht
  apply everywhere_ite
  · apply everywhere_toList
    intro node hnode
    obtain ⟨g, hg, rfl⟩ := Option.map_eq_some_iff.mp hnode
    refine named_branch ?_ (hgroup g hg)
    simpa [Label.Named] using htarget g hg
  apply everywhere_ite
  · exact named_function? _ _ ht
  apply everywhere_ite
  · exact named_typeAlias? _ ht
  apply everywhere_ite
  · exact named_constant? _ ht
  · exact everywhere_nil

/-- The share of a child has names if its `impl` blocks are for a type with a name, and if its body
has names in case it is a module. -/
theorem named_nodes {s : Share} (ht : s.item.tree.Legible source)
    (hblocks : ∀ block ∈ s.blocks, block.Legible source)
    (htarget : ∀ group ∈ groupOf? source s.blocks, group.target ≠ [])
    (hmodule : s.item.tree.kind = "mod_item" → (s.item.tree.child? "name").isSome →
      ∀ body, s.item.tree.child? "body" = some body → Everywhere Label.Named (items source body)) :
    Everywhere Label.Named (s.nodes source) := by
  unfold Share.nodes lowered itemNodes
  apply everywhere_ite
  · exact everywhere_nil
  split_ifs with hkind
  · rw [everywhere_iff_forall]
    intro node hnode
    obtain ⟨name, hname, rfl⟩ := List.mem_map.mp hnode
    obtain ⟨c, hc, rfl⟩ := Option.map_eq_some_iff.mp (Option.mem_toList.mp hname)
    split
    · rename_i body hbody
      exact named_branch trivial (hmodule hkind (by rw [hc]; rfl) body hbody)
    · exact named_leaf trivial
  · exact named_plainItem ht (named_groupOf? hblocks) htarget

/-! ## Containers -/

/-- The nodes of a container have names exactly if the share of each child has. -/
theorem named_items_iff_shares (container : ParseTree) :
    Everywhere Label.Named (items source container) ↔
      ∀ s ∈ sharesOf source container.parts, Everywhere Label.Named (s.nodes source) := by
  rw [items_eq_arrange, named_arrange_iff, Dialect.pieces, List.forall_mem_filterMap, sharesOf,
    List.forall_mem_map]
  refine forall₂_congr fun child _ => ?_
  change (∀ piece, (dialect source).piece?
    ((shareAt source container.parts child).nodes source) child.2 = some piece → _) ↔ _
  by_cases helement : (dialect source).isElement child.2 = true
  · obtain ⟨hattribute, hcomment⟩ := Dialect.isElement_iff.mp helement
    have hpiece : (dialect source).piece? ((shareAt source container.parts child).nodes source)
        child.2 = some (.element ((shareAt source container.parts child).nodes source)) := by
      rw [Dialect.piece?, hattribute, hcomment]
      rfl
    rw [hpiece]
    simp only [Option.some.injEq, forall_eq']
    rfl
  · -- Comments and attributes have no share, and a comment needs no name.
    have hnodes : (shareAt source container.parts child).nodes source = [] :=
      lowered_of_not_isElement _ helement
    rw [hnodes]
    refine iff_of_true ?_ everywhere_nil
    intro piece hpiece
    unfold Dialect.piece? at hpiece
    split_ifs at hpiece <;> obtain rfl := Option.some.inj hpiece
    · exact everywhere_nil
    · exact named_leaf trivial
    · exact everywhere_nil

/-- A module with a body has the items in its body as children. -/
theorem nodes_of_module {s : Share} {body : ParseTree} (hkind : s.item.tree.kind = "mod_item")
    (hname : (s.item.tree.child? "name").isSome) (hbody : s.item.tree.child? "body" = some body) :
    ∃ head, s.nodes source = [.branch (.package head) (items source body)] := by
  obtain ⟨name, hname⟩ := Option.isSome_iff_exists.mp hname
  refine ⟨⟨String.ofList (name.text source), s.item.tree.location source⟩, ?_⟩
  simp [Share.nodes, lowered, itemNodes, isComment, hkind, ParseTree.textOf?, hname, hbody]

theorem exists_share_of_mem_parts {parts : List ParseTree} {t : ParseTree} (h : t ∈ parts) :
    ∃ s ∈ sharesOf source parts, s.item.tree = t := by
  rw [← @map_tree_sharesOf source parts, List.mem_map] at h
  exact h

/-- The first `impl` block for a type without a name stands for it. -/
theorem not_named_of_impl {container block : ParseTree} (h : container.Legible source)
    (hblock : block ∈ container.parts) (himpl : isImplOf source [] block = true) :
    ∃ s ∈ sharesOf source container.parts, ¬ Everywhere Label.Named (s.nodes source) := by
  -- No type is declared without a name, so that no declaration takes the blocks.
  have hundeclared : ∀ s ∈ sharesOf source container.parts,
      declares source [] s.item.tree = false := by
    intro s hs
    have hlegible := h.part (mem_parts_of_mem_sharesOf hs)
    by_contra hdeclares
    simp only [declares, Bool.not_eq_false, Bool.and_eq_true, beq_iff_eq] at hdeclares
    exact ne_empty_of_textOf? hlegible hdeclares.2 rfl
  have hfound : ((sharesOf source container.parts).find? fun s =>
      isImplOf source [] s.item.tree).isSome := by
    obtain ⟨s, hs, rfl⟩ := @exists_share_of_mem_parts source _ _ hblock
    exact List.find?_isSome.mpr ⟨s, hs, himpl⟩
  obtain ⟨share, hfirst⟩ := Option.isSome_iff_exists.mp hfound
  obtain ⟨hshare, before, after, hshares, hbefore⟩ := List.find?_eq_some_iff_append.mp hfirst
  obtain ⟨-, hstands, -⟩ := (gathers_sharesOf [] container.parts).foreign hundeclared before share
    after hshares hshare (by simpa using hbefore)
  refine ⟨share, by simp [hshares], ?_⟩
  rw [hstands, everywhere_branch_cons]
  exact fun hnamed => hnamed.1 rfl

theorem mem_parts_of_mem_blocksAt {parts : List ParseTree} {child : List ParseTree × ParseTree}
    {block : ParseTree} (h : block ∈ blocksAt source parts child) : block ∈ parts := by
  unfold blocksAt at h
  split at h
  · split_ifs at h
    · cases h
    · exact (List.mem_filter.mp h).1
  · cases h

theorem target_ne_nil_of_groupOf? {parts : List ParseTree} {child : List ParseTree × ParseTree}
    {group : ImplGroup} (hblocks : ∀ block ∈ parts, isImplOf source [] block = false)
    (hgroup : group ∈ groupOf? source (blocksAt source parts child)) : group.target ≠ [] := by
  obtain ⟨first, hfirst, rfl⟩ := Option.map_eq_some_iff.mp hgroup
  have hmem := List.mem_of_mem_head? hfirst
  obtain ⟨target, himpl, -⟩ := exists_of_mem_blocksAt hmem
  have htarget : implTarget? source first = some target := by
    simpa using (Bool.and_eq_true_iff.mp himpl).2
  rw [htarget, Option.getD_some]
  rintro rfl
  rw [hblocks first (mem_parts_of_mem_blocksAt hmem)] at himpl
  cases himpl

/-- A container has names exactly if its `impl` blocks are for types with a name, and if the bodies
of the modules in it have names. -/
theorem named_items_iff {container : ParseTree} (h : container.Legible source) :
    Everywhere Label.Named (items source container) ↔
      (∀ block ∈ container.parts, isImplOf source [] block = false) ∧
      ∀ t ∈ container.parts, t.kind = "mod_item" → (t.child? "name").isSome →
        ∀ body, t.child? "body" = some body → Everywhere Label.Named (items source body) := by
  rw [named_items_iff_shares]
  constructor
  · intro hshares
    constructor
    · intro block hblock
      by_contra himpl
      obtain ⟨s, hs, hunnamed⟩ := not_named_of_impl h hblock (by simpa using himpl)
      exact hunnamed (hshares s hs)
    · intro t ht hkind hname body hbody
      obtain ⟨s, hs, rfl⟩ := @exists_share_of_mem_parts source _ _ ht
      obtain ⟨head, hnodes⟩ := @nodes_of_module source s body hkind hname hbody
      have hnamed := hshares s hs
      rw [hnodes, everywhere_branch_cons] at hnamed
      exact hnamed.2.1
  · rintro ⟨hblocks, hmodules⟩ s hs
    have hlegible := h.part (mem_parts_of_mem_sharesOf hs)
    obtain ⟨child, hchild, rfl⟩ := List.mem_map.mp hs
    apply named_nodes hlegible
    · exact fun block hblock => h.part (mem_parts_of_mem_blocksAt hblock)
    · exact fun group hgroup => target_ne_nil_of_groupOf? hblocks hgroup
    · exact hmodules _ (mem_parts_of_mem_sharesOf hs)

/-- A container has names exactly if no `impl` block in it or in a module below is for a type
without a name. -/
theorem named_items_iff_scopes {container : ParseTree} (h : container.Legible source) :
    Everywhere Label.Named (items source container) ↔
      ∀ scope, Scope container scope → ∀ block ∈ scope.parts,
        isImplOf source [] block = false := by
  -- The body of a module is a container smaller than the one that the module is in.
  induction hsize : container.size using Nat.strongRecOn generalizing container with
  | ind n ih =>
      rw [named_items_iff h]
      have hbody : ∀ t ∈ container.parts, ∀ body, t.child? "body" = some body →
          (Everywhere Label.Named (items source body) ↔
            ∀ scope, Scope body scope → ∀ block ∈ scope.parts,
              isImplOf source [] block = false) := by
        intro t ht body hbody
        have hlt : body.size < n :=
          hsize ▸ (ParseTree.size_lt_of_child? hbody).trans (ParseTree.size_lt_of_mem_parts ht)
        exact ih body.size hlt ((h.part ht).child? hbody) rfl
      constructor
      · rintro ⟨hblocks, hmodules⟩ scope hscope
        cases hscope with
        | self => exact hblocks
        | inside ht hkind hname hchild hinner =>
            exact (hbody _ ht _ hchild).mp (hmodules _ ht hkind hname _ hchild) scope hinner
      · intro hscopes
        refine ⟨hscopes container (.self container), ?_⟩
        intro t ht hkind hname body hchild
        exact (hbody t ht body hchild).mpr fun scope hinner =>
          hscopes scope (.inside ht hkind hname hchild hinner)

/-! ## Outlines -/

theorem isImplOf_nil_iff {block : ParseTree} :
    isImplOf source [] block = true ↔
      block.kind = "impl_item" ∧
        ∃ target, block.child? "type" = some target ∧ Nameless (target.text source) := by
  simp [isImplOf, implTarget?, ParseTree.textOf?, baseName_eq_nil_iff]

/-- If every node of a Rust source covers some text, all declarations of its outline have names
exactly if no `impl` block is for a type that is spelled without one in front of its first `<`. -/
theorem outline_named_iff (path : String) (bytes : List UInt8) {tree : ParseTree}
    (h : tree.Legible (Text.decodeLossy bytes)) :
    (∀ kind location,
      Finding.unnamed kind location ∉ (Grammar.rust.outline path bytes tree).findings) ↔
    ∀ scope, Scope tree scope → ∀ block ∈ scope.parts, block.kind = "impl_item" →
      ∀ target, block.child? "type" = some target →
        ¬ Nameless (target.text (Text.decodeLossy bytes)) := by
  have hproblems : Everywhere Label.Named
      ((sourceProblems bytes tree).map fun problem => .leaf (.problem problem)) := by
    rw [everywhere_iff_forall, List.forall_mem_map]
    exact fun problem _ => named_leaf trivial
  rw [Outline.forall_unnamed_notMem_iff]
  change Everywhere Label.Named (items _ tree ++ _) ↔ _
  rw [everywhere_append, and_iff_left hproblems, named_items_iff_scopes h]
  simp only [← Bool.not_eq_true, isImplOf_nil_iff, not_and, not_exists]

/-! ## A specimen -/

/-- The bytes of a block that implements a trait for an associated type. -/
def qualifiedBytes : List UInt8 :=
  Text.encode "impl D for <A as B>::C \x7b\x7d".toList

/-- The parse tree of the block. -/
def qualifiedTree : ParseTree :=
  ⟨"source_file", "", true, false, false, 0, 25,
    [⟨"impl_item", "", true, false, false, 0, 25,
      [⟨"impl", "", false, false, false, 0, 4, []⟩,
       ⟨"type_identifier", "trait", true, false, false, 5, 6, []⟩,
       ⟨"for", "", false, false, false, 7, 10, []⟩,
       ⟨"scoped_type_identifier", "type", true, false, false, 11, 22,
        [⟨"bracketed_type", "path", true, false, false, 11, 19,
          [⟨"<", "", false, false, false, 11, 12, []⟩,
           ⟨"qualified_type", "", true, false, false, 12, 18,
            [⟨"type_identifier", "type", true, false, false, 12, 13, []⟩,
             ⟨"as", "", false, false, false, 14, 16, []⟩,
             ⟨"type_identifier", "alias", true, false, false, 17, 18, []⟩]⟩,
           ⟨">", "", false, false, false, 18, 19, []⟩]⟩,
         ⟨"::", "", false, false, false, 19, 21, []⟩,
         ⟨"type_identifier", "name", true, false, false, 21, 22, []⟩]⟩,
       ⟨"declaration_list", "body", true, false, false, 23, 25,
        [⟨"\x7b", "", false, false, false, 23, 24, []⟩,
         ⟨"\x7d", "", false, false, false, 24, 25, []⟩]⟩]⟩]⟩

theorem legible_qualifiedTree : qualifiedTree.Legible (Text.decodeLossy qualifiedBytes) :=
  .of_forall_mem (by decide)

/-- The class for the associated type is found to have no name. -/
theorem findings_qualified :
    (Grammar.rust.outline "test.rs" qualifiedBytes qualifiedTree).findings =
      [.unnamed (.type .classType)
        (qualifiedTree.location (Text.decodeLossy qualifiedBytes))] := by
  rw [Outline.findings, Outline.walk, Node.walk_eq_preorderAll, Grammar.outline, Grammar.nodes,
    Rust.outline, items_eq]
  decide +kernel

theorem outline_named_iff_qualified :
    qualifiedTree.Legible (Text.decodeLossy qualifiedBytes) ∧
    ((∀ kind location, Finding.unnamed kind location ∉
      (Grammar.rust.outline "test.rs" qualifiedBytes qualifiedTree).findings) ↔
    ∀ scope, Scope qualifiedTree scope → ∀ block ∈ scope.parts, block.kind = "impl_item" →
      ∀ target, block.child? "type" = some target →
        ¬ Nameless (target.text (Text.decodeLossy qualifiedBytes))) :=
  ⟨legible_qualifiedTree, outline_named_iff "test.rs" qualifiedBytes legible_qualifiedTree⟩

/-- Declarations may lack a name although every node covers some text and none is at fault. -/
theorem not_forall_outline_named :
    ¬ ∀ (path : String) (bytes : List UInt8) (tree : ParseTree), tree.hasFault = false →
      tree.Legible (Text.decodeLossy bytes) →
        ∀ kind location,
          Finding.unnamed kind location ∉ (Grammar.rust.outline path bytes tree).findings := by
  intro hall
  apply hall "test.rs" qualifiedBytes qualifiedTree rfl legible_qualifiedTree
  rw [findings_qualified]
  exact List.mem_singleton_self _

end Rust

end Precis
