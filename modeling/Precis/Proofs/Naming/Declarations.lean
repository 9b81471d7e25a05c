import Precis.Audit
import Precis.Proofs.Outlining.Arrangement
import Mathlib.Data.List.Basic

/-! # Declarations with names

An audit finds a missing name exactly where a declaration has none. Arranging a body neither gives
names nor takes them away. -/

namespace Precis

/-- A declaration has a name; other nodes need none. -/
def Label.Named : Label → Prop
  | .head (.type declared) => declared.name ≠ ""
  | .leaf (.function item) => item.name ≠ ""
  | .leaf (.field item) => item.name ≠ ""
  | .leaf (.typeAlias item) => item.name ≠ ""
  | .head (.file _) | .head (.package _) | .leaf (.imported _) | .leaf (.comment _)
  | .leaf (.problem _) => True

/-! ## What an audit finds -/

namespace Node

theorem unnamed_notMem_memberFindings (kind : NodeKind) (location : Location) (enumName : String)
    (node : Node) : Finding.unnamed kind location ∉ node.memberFindings enumName := by
  unfold memberFindings
  split
  · split_ifs <;> simp
  · simp

theorem unnamed_notMem_branchFindings (kind : NodeKind) (location : Location) (head : Head)
    (children : List Node) : Finding.unnamed kind location ∉ branchFindings head children := by
  cases head with
  | file head => simp [branchFindings]
  | package head => simp [branchFindings]
  | type head =>
      simp only [branchFindings]
      split_ifs
      · simp [List.mem_flatMap, unnamed_notMem_memberFindings]
      · simp

theorem unnamed_iff (node : Node) :
    (node.kind.isDeclaration && node.name? == some "") = true ↔ ¬ node.label.Named := by
  rcases node with ⟨_ | _ | _, _⟩ | (_ | _ | _ | _ | _ | _) <;>
    simp [kind, Head.kind, Leaf.kind, NodeKind.isDeclaration, name?, Head.name, Leaf.name?, label,
      Label.Named]

/-- A declaration without a name is found as what it is and where it stands. -/
theorem unnamed_mem_findings_iff {node : Node} {kind : NodeKind} {location : Location} :
    Finding.unnamed kind location ∈ node.findings ↔
      ¬ node.label.Named ∧ kind = node.kind ∧ location = node.location := by
  unfold findings
  rw [List.mem_append, List.mem_append, ← unnamed_iff]
  constructor
  · rintro ((h | h) | h)
    · split_ifs at h
      · simp at h
      · cases h
    · split at h
      · exact absurd h (unnamed_notMem_branchFindings kind location _ _)
      · cases h
    · split_ifs at h with hunnamed
      · obtain ⟨rfl, rfl⟩ := Finding.unnamed.inj (List.mem_singleton.mp h)
        exact ⟨hunnamed, rfl, rfl⟩
      · cases h
  · rintro ⟨hunnamed, rfl, rfl⟩
    rw [if_pos hunnamed]
    exact .inr (List.mem_singleton_self _)

end Node

/-- An audit finds no missing name exactly if every declaration has one. -/
theorem Outline.forall_unnamed_notMem_iff {o : Outline} :
    (∀ kind location, Finding.unnamed kind location ∉ o.findings) ↔
      Node.Everywhere Label.Named o.children := by
  simp only [findings, walk, Node.walk_eq_preorderAll, List.mem_flatMap,
    Node.unnamed_mem_findings_iff, not_exists, not_and, Node.Everywhere]
  constructor
  · intro h node hnode
    by_contra hunnamed
    exact h node.kind node.location node hnode hunnamed rfl rfl
  · intro h kind location node hnode hunnamed
    exact absurd (h node hnode) hunnamed

/-! ## Arranged bodies -/

namespace Node

section Arranging

variable {P : Label → Prop} (hcomment : ∀ c, P (.leaf (.comment c)))
  (hdoc : ∀ node c, P (withDoc c node).label ↔ P node.label)

include hdoc in
theorem everywhere_map_withDoc_iff (c : Comment) (nodes : List Node) :
    Everywhere P (nodes.map (withDoc c)) ↔ Everywhere P nodes := by
  induction nodes with
  | nil => rfl
  | cons node rest ih =>
      have hnode := hdoc node c
      cases node with
      | branch head children =>
          simp only [List.map_cons, withDoc, everywhere_branch_cons, ih]
          exact and_congr_left fun _ => hnode
      | leaf item =>
          simp only [List.map_cons, withDoc, everywhere_leaf_cons, ih]
          exact and_congr_left fun _ => hnode

include hcomment in
theorem everywhere_standalone (waiting : Option Comment) : Everywhere P (standalone waiting) := by
  cases waiting with
  | none => exact everywhere_nil
  | some c => exact everywhere_leaf_cons.mpr ⟨hcomment c, everywhere_nil⟩

include hcomment hdoc in
theorem everywhere_document_iff (waiting : Option Comment) (nodes : List Node) :
    Everywhere P (document waiting nodes) ↔ Everywhere P nodes := by
  cases waiting with
  | none => rfl
  | some c =>
      simp only [document]
      split_ifs with hempty
      · rw [List.isEmpty_iff.mp hempty]
      · exact everywhere_map_withDoc_iff hdoc c nodes
      · simp [hcomment c]

include hcomment hdoc in
/-- A property that comments have and that does not depend on documentation holds in a body exactly
if it holds in all its pieces. -/
theorem everywhere_arrangeFrom_iff (waiting : Option Comment) (pieces : List Piece) :
    Everywhere P (arrangeFrom waiting pieces) ↔ ∀ piece ∈ pieces, Everywhere P piece.nodes := by
  induction pieces generalizing waiting with
  | nil => simpa [arrangeFrom] using everywhere_standalone hcomment waiting
  | cons piece rest ih =>
      cases piece with
      | doc c => simp [arrangeFrom, ih, Piece.nodes]
      | aside node =>
          rw [arrangeFrom, ← List.singleton_append, everywhere_append, ih, List.forall_mem_cons]
          rfl
      | element nodes =>
          rw [arrangeFrom, everywhere_append, ih, everywhere_document_iff hcomment hdoc,
            List.forall_mem_cons]
          rfl
      | group nodes =>
          simp [arrangeFrom, ih, Piece.nodes, everywhere_standalone hcomment waiting]

end Arranging

theorem named_withDoc_iff (node : Node) (c : Comment) :
    (withDoc c node).label.Named ↔ node.label.Named := by
  rcases node with ⟨_ | _ | _, _⟩ | (_ | _ | _ | _ | _ | _) <;> rfl

/-- The declarations of a body have names exactly if those of its pieces do. -/
theorem named_arrange_iff (pieces : List Piece) :
    Everywhere Label.Named (arrange pieces) ↔
      ∀ piece ∈ pieces, Everywhere Label.Named piece.nodes :=
  everywhere_arrangeFrom_iff (fun _ => trivial) named_withDoc_iff none pieces

end Node

end Precis
