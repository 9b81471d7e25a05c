import Precis.Frontend
import Precis.Proofs.Outlining.Java
import Precis.Proofs.Outlining.Python

/-! # Branches and what they own

A property of all branches of an outline and the nodes they own follows from the same property of
the branches that each single node of the parse tree is made into. -/

namespace Precis

namespace Node

/-- Every branch of a row of trees, at any depth, and the nodes it owns have a property. -/
def EveryBranch (P : Head → List Node → Prop) (nodes : List Node) : Prop :=
  ∀ head children, branch head children ∈ preorderAll nodes → P head children

section

variable {P : Head → List Node → Prop}

@[simp] theorem everyBranch_nil : EveryBranch P [] := by
  simp [EveryBranch, preorderAll]

@[simp] theorem everyBranch_leaf_cons {item : Leaf} {rest : List Node} :
    EveryBranch P (leaf item :: rest) ↔ EveryBranch P rest := by
  simp [EveryBranch, preorderAll, preorder]

@[simp] theorem everyBranch_branch_cons {head : Head} {children rest : List Node} :
    EveryBranch P (branch head children :: rest) ↔
      P head children ∧ EveryBranch P children ∧ EveryBranch P rest := by
  simp only [EveryBranch, preorderAll, preorder, List.cons_append, List.mem_cons, List.mem_append,
    branch.injEq]
  constructor
  · intro h
    exact ⟨h head children (.inl ⟨rfl, rfl⟩), fun _ _ hmem => h _ _ (.inr (.inl hmem)),
      fun _ _ hmem => h _ _ (.inr (.inr hmem))⟩
  · rintro ⟨hown, hchildren, hrest⟩ other below (⟨rfl, rfl⟩ | hmem | hmem)
    · exact hown
    · exact hchildren other below hmem
    · exact hrest other below hmem

/-- It is enough to look at the branches of the row and at what they own. -/
theorem everyBranch_iff {nodes : List Node} :
    EveryBranch P nodes ↔
      ∀ head children, branch head children ∈ nodes → P head children ∧ EveryBranch P children := by
  induction nodes with
  | nil => simp
  | cons node rest ih =>
      cases node with
      | leaf item => simp [ih]
      | branch head children =>
          rw [everyBranch_branch_cons, ih]
          simp only [List.mem_cons, branch.injEq]
          constructor
          · rintro ⟨hown, hchildren, hrest⟩ other below (⟨rfl, rfl⟩ | hmem)
            · exact ⟨hown, hchildren⟩
            · exact hrest other below hmem
          · intro h
            obtain ⟨hown, hchildren⟩ := h head children (.inl ⟨rfl, rfl⟩)
            exact ⟨hown, hchildren, fun other below hmem => h other below (.inr hmem)⟩

theorem everyBranch_of_leaves {nodes : List Node}
    (h : ∀ head children, branch head children ∉ nodes) : EveryBranch P nodes :=
  everyBranch_iff.mpr fun head children hmem => absurd hmem (h head children)

theorem everyBranch_append {xs ys : List Node} :
    EveryBranch P (xs ++ ys) ↔ EveryBranch P xs ∧ EveryBranch P ys := by
  simp only [EveryBranch, preorderAll_append, List.mem_append, or_imp, forall_and]

theorem everyBranch_flatMap {α : Type} {xs : List α} {f : α → List Node}
    (h : ∀ x ∈ xs, EveryBranch P (f x)) : EveryBranch P (xs.flatMap f) := by
  rw [everyBranch_iff]
  intro head children hmem
  obtain ⟨x, hx, hmem⟩ := List.mem_flatMap.mp hmem
  exact everyBranch_iff.mp (h x hx) head children hmem

/-- A body has the property if its pieces have it and doc comments do not matter. -/
theorem everyBranch_arrange {pieces : List Piece}
    (hdoc : ∀ head children c, P head children → P (head.withDoc c) children)
    (h : ∀ piece ∈ pieces, EveryBranch P piece.nodes) : EveryBranch P (arrange pieces) := by
  rw [everyBranch_iff]
  intro head children hmem
  generalize hnode : branch head children = node at hmem
  cases arranged_of_mem_arrange hmem with
  | plain hpiece hmem =>
      exact everyBranch_iff.mp (h _ hpiece) head children (hnode ▸ hmem)
  | @documented piece original c hpiece horiginal _ =>
      cases original with
      | leaf item => cases hnode
      | branch head' children' =>
          obtain ⟨rfl, rfl⟩ := branch.inj hnode
          obtain ⟨hown, hchildren⟩ := everyBranch_iff.mp (h _ hpiece) head' _ horiginal
          exact ⟨hdoc head' _ c hown, hchildren⟩
  | standalone _ => cases hnode

end

end Node

/-! ## Java -/

namespace Java

open Node

variable {P : Head → List Node → Prop} {source : List Char}

/-- What a node of the parse tree of a Java source may be made into, as a branch. -/
inductive Built (source : List Char) (t : ParseTree) : Head → List Node → Prop where
  | package (head : PackageHead) : Built source t (.package head) []
  | declared (head : TypeHead) (owner : Owner) : Built source t (.type head) (body source owner t)
  | record (head : TypeHead) (hkind : t.kind = "record_declaration") :
      Built source t (.type head) (componentFields source t ++ body source .classType t)
  | enum (head : TypeHead) (hkind : head.kind = .enumType) :
      Built source t (.type head)
        (((t.child? "body").map fun block =>
          arrange (block.parts.map (enumPiece source head.name))).getD [])

theorem mem_leafMember {t : ParseTree} {owner : Owner} {node : Node}
    (h : node ∈ leafMember source owner t) :
    node.location = t.location source ∧
      (node = packageNode source t ∨ ∃ item, node = .leaf item) := by
  unfold leafMember at h
  split at h
  · obtain rfl := List.mem_singleton.mp h
    exact ⟨rfl, .inl rfl⟩
  split at h
  · obtain rfl := List.mem_singleton.mp h
    exact ⟨rfl, .inr ⟨_, rfl⟩⟩
  split at h
  · obtain ⟨name, -, rfl⟩ := Option.map_eq_some_iff.mp (Option.mem_toList.mp h)
    exact ⟨rfl, .inr ⟨_, rfl⟩⟩
  split at h
  · obtain ⟨name, -, rfl⟩ := Option.map_eq_some_iff.mp (Option.mem_toList.mp h)
    exact ⟨rfl, .inr ⟨_, rfl⟩⟩
  split at h
  · obtain ⟨declarator, -, h⟩ := List.mem_filterMap.mp h
    obtain ⟨name, -, rfl⟩ := Option.map_eq_some_iff.mp h
    exact ⟨rfl, .inr ⟨_, rfl⟩⟩
  · cases h

theorem mem_declared {t : ParseTree} {owner : Owner} {kind : TypeKind} {f : TypeHead → TypeHead}
    {inside : TypeHead → List Node} {node : Node}
    (h : node ∈ ((typeHead? source owner kind t).map f).toList.map fun head =>
      .branch (.type head) (inside head))
    (hf : ∀ head, (f head).location = head.location ∧ (f head).kind = head.kind) :
    ∃ head : TypeHead, node = .branch (.type head) (inside head) ∧
      head.location = t.location source ∧ head.kind = kind := by
  obtain ⟨head, hhead, rfl⟩ := List.mem_map.mp h
  obtain ⟨common, hcommon, rfl⟩ := Option.map_eq_some_iff.mp (Option.mem_toList.mp hhead)
  obtain ⟨name, -, rfl⟩ := Option.map_eq_some_iff.mp hcommon
  exact ⟨_, rfl, (hf _).1, (hf _).2⟩

/-- A member stands where its node of the parse tree stands; if it is a branch, it is built from
that node. -/
theorem mem_member {t : ParseTree} {owner : Owner} {node : Node}
    (h : node ∈ member source owner t) :
    node.location = t.location source ∧
      ∀ head children, node = .branch head children → Built source t head children := by
  by_cases henum : t.kind = "enum_declaration"
  · rw [member_of_enum source owner t henum] at h
    obtain ⟨head, rfl, hlocation, hkind⟩ := mem_declared h fun _ => ⟨rfl, rfl⟩
    refine ⟨hlocation, ?_⟩
    rintro _ _ ⟨⟩
    exact .enum head hkind
  · rw [member, if_neg henum] at h
    split at h
    · obtain ⟨head, rfl, hlocation, -⟩ := mem_declared h fun _ => ⟨rfl, rfl⟩
      refine ⟨hlocation, ?_⟩
      rintro _ _ ⟨⟩
      exact .declared head .classType
    split at h
    · obtain ⟨head, rfl, hlocation, -⟩ := mem_declared h fun _ => ⟨rfl, rfl⟩
      refine ⟨hlocation, ?_⟩
      rintro _ _ ⟨⟩
      exact .declared head .interfaceType
    split at h
    · rename_i hrecord
      obtain ⟨head, rfl, hlocation, -⟩ := mem_declared h fun _ => ⟨rfl, rfl⟩
      refine ⟨hlocation, ?_⟩
      rintro _ _ ⟨⟩
      exact .record head hrecord
    · obtain ⟨hlocation, rfl | ⟨item, rfl⟩⟩ := mem_leafMember h
      · refine ⟨hlocation, ?_⟩
        rintro _ _ ⟨⟩
        exact .package _
      · refine ⟨hlocation, ?_⟩
        rintro _ _ ⟨⟩

theorem everyBranch_componentFields (t : ParseTree) :
    EveryBranch P (componentFields source t) := by
  apply everyBranch_of_leaves
  intro head children hmem
  unfold componentFields at hmem
  split at hmem
  · obtain ⟨part, -, hfield⟩ := List.mem_filterMap.mp hmem
    unfold componentField? at hfield
    split at hfield
    · obtain ⟨name, -, h⟩ := Option.map_eq_some_iff.mp hfield
      cases h
    · cases hfield
  · cases hmem

theorem everyBranch_commentPiece (t : ParseTree) :
    EveryBranch P (commentPiece source t).nodes := by
  unfold commentPiece
  dsimp only
  split
  · exact everyBranch_nil
  · exact everyBranch_leaf_cons.mpr everyBranch_nil

theorem everyBranch_body {t : ParseTree} {owner : Owner}
    (h : ∀ block ∈ t.children, EveryBranch P (members source owner block)) :
    EveryBranch P (body source owner t) := by
  rw [body_eq]
  cases hbody : t.child? "body" with
  | none => exact everyBranch_nil
  | some block => exact h block (ParseTree.mem_of_child? hbody)

/-- What a node gives has the property, whether it stands as a member, as a body, in the body of an
enum or as the body of an enum. -/
structure Branching (P : Head → List Node → Prop) (source : List Char) (t : ParseTree) : Prop where
  member : ∀ owner, EveryBranch P (member source owner t)
  members : ∀ owner, EveryBranch P (members source owner t)
  enumPiece : ∀ enumName, EveryBranch P (enumPiece source enumName t).nodes
  enumBody : ∀ enumName, EveryBranch P (arrange (t.parts.map (Java.enumPiece source enumName)))

/-- If all members that are branches have a property, so have the branches at any depth. -/
theorem branching_of_throughout {t : ParseTree}
    (hdoc : ∀ head children c, P head children → P (head.withDoc c) children)
    (h : t.Throughout fun u => ∀ owner head children,
      .branch head children ∈ member source owner u → P head children) :
    Branching P source t := by
  induction h with
  | @intro t here below ih =>
      have hpart : ∀ part ∈ t.parts, Branching P source part :=
        fun part hpart => ih part (ParseTree.mem_of_mem_parts hpart)
      have hbody : ∀ owner, EveryBranch P (body source owner t) := by
        intro owner
        exact everyBranch_body fun block hblock => (ih block hblock).members owner
      have hmember : ∀ owner, EveryBranch P (member source owner t) := by
        intro owner
        rw [everyBranch_iff]
        intro head children hmem
        refine ⟨here owner head children hmem, ?_⟩
        cases (mem_member hmem).2 head children rfl with
        | package head => exact everyBranch_nil
        | declared head owner => exact hbody owner
        | record head hkind =>
            exact everyBranch_append.mpr ⟨everyBranch_componentFields t, hbody .classType⟩
        | enum head hkind =>
            cases hblock : t.child? "body" with
            | none => exact everyBranch_nil
            | some block => exact (ih block (ParseTree.mem_of_child? hblock)).enumBody head.name
      have hmembers : ∀ owner, EveryBranch P (members source owner t) := by
        intro owner
        rw [members_eq]
        apply everyBranch_arrange hdoc
        intro piece hpiece
        obtain ⟨part, hmem, rfl⟩ := List.mem_map.mp hpiece
        split
        · exact everyBranch_commentPiece part
        · exact (hpart part hmem).member owner
      refine ⟨hmember, hmembers, ?_, ?_⟩
      · intro enumName
        rw [enumPiece]
        split
        · apply everyBranch_of_leaves
          intro head children hmem
          obtain ⟨name, -, h⟩ := Option.map_eq_some_iff.mp (Option.mem_toList.mp hmem)
          cases h
        split
        · exact everyBranch_commentPiece t
        split
        · exact hmembers .enumType
        · exact hmember .enumType
      · intro enumName
        apply everyBranch_arrange hdoc
        intro piece hpiece
        obtain ⟨part, hmem, rfl⟩ := List.mem_map.mp hpiece
        exact (hpart part hmem).enumPiece enumName

end Java

/-! ## Python -/

namespace Python

open Node

variable {P : Head → List Node → Prop} {source : List Char}

theorem everyBranch_function? (scope : Scope) (decorators : List (List Char)) (t : ParseTree) :
    EveryBranch P (function? source scope decorators t).toList := by
  apply everyBranch_of_leaves
  intro head children hmem
  obtain ⟨name, -, h⟩ := Option.map_eq_some_iff.mp (Option.mem_toList.mp hmem)
  cases h

theorem everyBranch_plainStatement (scope : Scope) (t : ParseTree) :
    EveryBranch P (plainStatement source scope t) := by
  unfold plainStatement
  split
  · apply everyBranch_of_leaves
    intro head children hmem
    obtain ⟨name, -, h⟩ := List.mem_map.mp hmem
    cases h
  split
  · exact everyBranch_leaf_cons.mpr everyBranch_nil
  split
  · exact everyBranch_function? scope [] t
  split
  · apply everyBranch_of_leaves
    intro head children hmem
    obtain ⟨_, _, _, h⟩ := field?_spec (Option.mem_toList.mp hmem)
    cases h
  split
  · exact everyBranch_leaf_cons.mpr everyBranch_nil
  · exact everyBranch_nil

theorem everyBranch_instanceFields (block : ParseTree) (declared : List Node) :
    EveryBranch P (instanceFields source block declared) := by
  apply everyBranch_of_leaves
  intro head children hmem
  unfold instanceFields at hmem
  split at hmem
  · cases hmem
  · obtain ⟨item, -, h⟩ := List.mem_map.mp hmem
    cases h

/-- What a node gives has the property, whether it stands as a statement, as the definition of a
class or as the body of a class. -/
structure Branching (P : Head → List Node → Prop) (source : List Char) (t : ParseTree) : Prop where
  statement : ∀ scope, EveryBranch P (statement source scope t)
  class? : ∀ decorators, EveryBranch P (class? source decorators t).toList
  block : EveryBranch P ((blockStatements source t).flatMap (Python.statement source .classBody))

/-- If all classes have a property, so have the branches at any depth. -/
theorem branching_of_throughout {t : ParseTree}
    (h : t.Throughout fun u => ∀ decorators head children,
      class? source decorators u = some (.branch head children) → P head children) :
    Branching P source t := by
  induction h with
  | @intro t here below ih =>
      have hclass : ∀ decorators, EveryBranch P (class? source decorators t).toList := by
        intro decorators
        rw [everyBranch_iff]
        intro head children hmem
        have hfound := Option.mem_toList.mp hmem
        refine ⟨here decorators head children hfound, ?_⟩
        rw [class?_eq] at hfound
        obtain ⟨declared, -, h⟩ := Option.map_eq_some_iff.mp hfound
        obtain ⟨-, rfl⟩ := branch.inj h
        cases hbody : t.child? "body" with
        | none => exact everyBranch_nil
        | some body =>
            have hblock := (ih body (ParseTree.mem_of_child? hbody)).block
            exact everyBranch_append.mpr ⟨hblock, everyBranch_instanceFields body _⟩
      refine ⟨?_, hclass, ?_⟩
      · intro scope
        rw [statement_eq]
        split
        · exact hclass []
        split
        · split
          · exact everyBranch_nil
          · rename_i definition hdefinition
            split
            · exact (ih definition (ParseTree.mem_of_child? hdefinition)).class? _
            split
            · exact everyBranch_function? scope _ definition
            · exact everyBranch_nil
        · exact everyBranch_plainStatement scope t
      · apply everyBranch_flatMap
        intro s hs
        have hpart := mem_parts_of_mem_blockStatements hs
        exact (ih s (ParseTree.mem_of_mem_parts hpart)).statement .classBody

theorem everyBranch_outline {root : ParseTree}
    (h : root.Throughout fun u => ∀ decorators head children,
      class? source decorators u = some (.branch head children) → P head children) :
    EveryBranch P (outline source root) := by
  have hstatement : ∀ t ∈ root.parts, EveryBranch P (statement source .module t) :=
    fun t ht => (branching_of_throughout (h.part ht)).statement .module
  unfold outline
  dsimp only
  refine everyBranch_append.mpr ⟨everyBranch_append.mpr ⟨?_, ?_⟩, ?_⟩
  · apply everyBranch_flatMap
    intro t ht
    exact hstatement t (mem_parts_of_mem_splitDocstring (.inl ht))
  · apply everyBranch_of_leaves
    intro head children hmem
    obtain ⟨c, -, hleaf⟩ := Option.map_eq_some_iff.mp (Option.mem_toList.mp hmem)
    cases hleaf
  · apply everyBranch_flatMap
    intro t ht
    exact hstatement t (mem_parts_of_mem_splitDocstring (.inr ht))

end Python

/-! ## Outlines -/

/-- The branches of an outline are those of the nodes that the parse tree declares. -/
theorem Node.EveryBranch.outline {P : Head → List Node → Prop} {g : Grammar} (path : String)
    (bytes : List UInt8) {tree : ParseTree}
    (h : EveryBranch P (g.nodes (Text.decodeLossy bytes) tree)) :
    ∀ head children, .branch head children ∈ (g.outline path bytes tree).walk →
      P head children := by
  have houtline : EveryBranch P (g.outline path bytes tree).children := by
    refine everyBranch_append.mpr ⟨h, everyBranch_of_leaves ?_⟩
    intro head children hmem
    obtain ⟨problem, -, hproblem⟩ := List.mem_map.mp hmem
    cases hproblem
  rw [Outline.walk, walk_eq_preorderAll]
  exact houtline

end Precis
