import Precis.Proofs.Walking.Preorder
import Mathlib.Data.List.Nodup

/-! # Every node is visited once

A walk comes to its end, and the nodes that it has visited by then are those of the recursive
listing. Said without recursion, these are all nodes below the root in the order of their addresses:
each of them once, before the nodes below it, and children from left to right. -/

namespace Precis

/-! ## Runs of a walk -/

namespace Walk

/-- A walk takes one step for each of these nodes, in this order, and is then at its end. -/
inductive Yields : Walk → List Node → Prop where
  | ended {w : Walk} (h : w.next? = none) : Yields w []
  | visited {w rest : Walk} {node : Node} {nodes : List Node} (h : w.next? = some (node, rest))
      (more : Yields rest nodes) : Yields w (node :: nodes)

variable {w : Walk} {nodes : List Node}

theorem yields_visits (w : Walk) : w.Yields w.visits := by
  fun_induction visits w with
  | case1 w hnext => exact .ended hnext
  | case2 w node rest hnext ih => exact .visited hnext ih

theorem Yields.eq_pending (h : w.Yields nodes) : nodes = w.pending := by
  induction h with
  | ended h => rw [pending_eq_nil_of_next? h]
  | visited h _ ih => rw [pending_of_next? h, ih]

/-- A walk yields what is pending and nothing else. -/
theorem yields_iff : w.Yields nodes ↔ nodes = w.pending := by
  refine ⟨Yields.eq_pending, ?_⟩
  rintro rfl
  rw [← visits_eq_pending]
  exact yields_visits w

/-- The number of steps is the number of nodes on the stack and below. -/
theorem Yields.length_eq (h : w.Yields nodes) : nodes.length = w.size := by
  induction h with
  | @ended w h =>
      rw [next?, Option.map_eq_none_iff, Array.back?_eq_none_iff] at h
      rw [size, h]
      rfl
  | visited h _ ih => rw [List.length_cons, ih, size_of_next? h]

end Walk

/-! ## Addresses -/

namespace Node

/-- What follows for a row from the same for the children of its first node and for the other nodes
holds for every row. -/
@[elab_as_elim]
theorem familyInduction {motive : List Node → Prop} (nil : motive [])
    (cons : ∀ node rest, motive node.children → motive rest → motive (node :: rest))
    (nodes : List Node) : motive nodes := by
  induction nodes using rowInduction with
  | nil => exact nil
  | leaf item rest ih => exact cons (leaf item) rest nil ih
  | branch head children rest ihc ihr => exact cons (branch head children) rest ihc ihr

/-- The node at an address below a node: the places of the children on the way to it. -/
def below? (node : Node) : List Nat → Option Node
  | [] => some node
  | place :: address => node.children[place]?.bind fun child => child.below? address

/-- The node at an address in a row of trees, which starts with the place in the row. -/
def at? (roots : List Node) : List Nat → Option Node
  | [] => none
  | place :: address => roots[place]?.bind fun root => root.below? address

mutual

/-- A node and all nodes below it, each before its children, with their addresses. -/
def addressed : Node → List (List Nat × Node)
  | branch head children => ([], branch head children) :: addressedAll 0 children
  | leaf item => [([], leaf item)]

/-- All nodes of a row of trees that starts at a place, each before its children, with their
addresses. -/
def addressedAll (first : Nat) : List Node → List (List Nat × Node)
  | [] => []
  | node :: rest =>
    (node.addressed.map fun p => (first :: p.1, p.2)) ++ addressedAll (first + 1) rest

end

theorem addressed_eq (node : Node) :
    node.addressed = ([], node) :: addressedAll 0 node.children := by
  cases node <;> simp [addressed, addressedAll, children]

theorem map_snd_addressedAll (first : Nat) (nodes : List Node) :
    (addressedAll first nodes).map Prod.snd = preorderAll nodes := by
  induction nodes using familyInduction generalizing first with
  | nil => rfl
  | cons node rest ihc ihr =>
      rw [addressedAll, preorderAll, List.map_append, List.map_map, ihr, addressed_eq, preorder_eq,
        ← ihc 0]
      rfl

/-- The nodes of a row are listed with the addresses at which they stand. -/
theorem mem_addressedAll_iff {first : Nat} {nodes : List Node} {address : List Nat} {node : Node} :
    (address, node) ∈ addressedAll first nodes ↔
      ∃ place below, address = (first + place) :: below ∧
        at? nodes (place :: below) = some node := by
  induction nodes using familyInduction generalizing first address with
  | nil => simp [addressedAll, at?]
  | cons root rest ihc ihr =>
      have hroot : ∀ below, (below, node) ∈ root.addressed ↔ root.below? below = some node := by
        intro below
        rw [addressed_eq, List.mem_cons, ihc]
        cases below with
        | nil => simp [below?, eq_comm]
        | cons place below => simp [below?, at?]
      have hhere : (address, node) ∈ root.addressed.map (fun p => (first :: p.1, p.2)) ↔
          ∃ below, address = first :: below ∧ root.below? below = some node := by
        simp [← hroot, eq_comm, and_comm]
      rw [addressedAll, List.mem_append, hhere, ihr]
      constructor
      · rintro (⟨below, rfl, hbelow⟩ | ⟨place, below, rfl, hbelow⟩)
        · exact ⟨0, below, rfl, hbelow⟩
        · exact ⟨place + 1, below, by rw [Nat.add_right_comm, Nat.add_assoc], hbelow⟩
      · rintro ⟨place, below, rfl, hbelow⟩
        cases place with
        | zero => exact .inl ⟨below, rfl, hbelow⟩
        | succ place => exact .inr ⟨place, below, by rw [Nat.add_right_comm, Nat.add_assoc], hbelow⟩

/-- They are listed in ascending order of their addresses. -/
theorem pairwise_addressedAll (first : Nat) (nodes : List Node) :
    ((addressedAll first nodes).map Prod.fst).Pairwise (· < ·) := by
  induction nodes using familyInduction generalizing first with
  | nil => exact .nil
  | cons root rest ihc ihr =>
      have hroot : (root.addressed.map Prod.fst).Pairwise (· < ·) := by
        rw [addressed_eq, List.map_cons, List.pairwise_cons]
        refine ⟨?_, ihc 0⟩
        intro address haddress
        obtain ⟨⟨_, node⟩, hmem, rfl⟩ := List.mem_map.mp haddress
        obtain ⟨place, below, rfl, -⟩ := mem_addressedAll_iff.mp hmem
        exact List.nil_lt_cons _ _
      rw [addressedAll, List.map_append, List.pairwise_append]
      refine ⟨?_, ihr (first + 1), ?_⟩
      · rw [List.map_map, List.pairwise_map]
        rw [List.pairwise_map] at hroot
        exact hroot.imp fun h => List.cons_lt_cons_iff.mpr (.inr ⟨rfl, h⟩)
      · intro address haddress other hother
        obtain ⟨p, hp, rfl⟩ := List.mem_map.mp haddress
        obtain ⟨q, -, rfl⟩ := List.mem_map.mp hp
        obtain ⟨⟨_, node⟩, hmem, rfl⟩ := List.mem_map.mp hother
        obtain ⟨place, below, rfl, -⟩ := mem_addressedAll_iff.mp hmem
        exact List.cons_lt_cons_iff.mpr (.inl (by omega))

/-- A list has all nodes of a row of trees in visiting order: it goes through all addresses of the
row in ascending order, so that each node comes once, before the nodes below it, and children come
from left to right. -/
def Lists (roots nodes : List Node) : Prop :=
  ∃ addresses : List (List Nat), addresses.Pairwise (· < ·) ∧
    (∀ address, address ∈ addresses ↔ (at? roots address).isSome) ∧
    addresses.map (at? roots) = nodes.map some

theorem lists_preorderAll (roots : List Node) : Lists roots (preorderAll roots) := by
  have hmem : ∀ address node,
      (address, node) ∈ addressedAll 0 roots ↔ at? roots address = some node := by
    intro address node
    rw [mem_addressedAll_iff]
    cases address with
    | nil => simp [at?]
    | cons place below => simp
  refine ⟨(addressedAll 0 roots).map Prod.fst, pairwise_addressedAll 0 roots, ?_, ?_⟩
  · intro address
    simp [Option.isSome_iff_exists, ← hmem]
  · rw [← map_snd_addressedAll 0, List.map_map, List.map_map]
    apply List.map_congr_left
    rintro ⟨address, node⟩ hp
    exact (hmem address node).mp hp

/-- There is only one such list. -/
theorem lists_iff {roots nodes : List Node} : Lists roots nodes ↔ nodes = preorderAll roots := by
  constructor
  · rintro ⟨addresses, hsorted, hall, hnodes⟩
    obtain ⟨others, hothers, hall', hpreorder⟩ := lists_preorderAll roots
    have hsame : addresses = others := by
      have hperm : addresses.Perm others := by
        apply (List.perm_ext_iff_of_nodup hsorted.nodup hothers.nodup).mpr
        intro address
        rw [hall, hall']
      apply List.Perm.eq_of_pairwise _ hsorted hothers hperm
      intro a b _ _ hab hba
      exact absurd hab (List.lt_asymm hba)
    rw [hsame, hpreorder] at hnodes
    exact (List.map_injective_iff.mpr (fun _ _ => Option.some.inj) hnodes).symm
  · rintro rfl
    exact lists_preorderAll roots

/-! ## Reports -/

mutual

/-- The problems that a node or a node below it reports. -/
def reported : Node → List Problem
  | branch _ children => reportedAll children
  | leaf (.problem item) => [item]
  | leaf _ => []

/-- The problems that the nodes of a row of trees report. -/
def reportedAll : List Node → List Problem
  | [] => []
  | node :: rest => node.reported ++ reportedAll rest

end

theorem filterMap_problem?_preorderAll (nodes : List Node) :
    (preorderAll nodes).filterMap problem? = reportedAll nodes := by
  induction nodes using rowInduction with
  | nil => rfl
  | leaf item rest ih =>
      rw [preorderAll, preorder, List.filterMap_append, ih, reportedAll]
      cases item <;> rfl
  | branch head children rest ihc ihr =>
      rw [preorderAll, preorder, List.cons_append, List.filterMap_cons_none rfl,
        List.filterMap_append, ihc, ihr, reportedAll, reported]

end Node

/-! ## Walks over an outline -/

/-- A walk over an outline comes to its end, and the nodes that it yields are those of the recursive
listing, which has every node below the root once, before the nodes below it, and children from
left to right. Their number and the problems among them are therefore those that are found by
recursion. -/
theorem Outline.walk_visits (o : Outline) :
    (∀ nodes, (Walk.start o.children).Yields nodes ↔ nodes = Node.preorderAll o.children) ∧
    (∀ nodes, Node.Lists o.children nodes ↔ nodes = Node.preorderAll o.children) ∧
    o.walk = Node.preorderAll o.children ∧
    o.countNodes = Node.sizeAll o.children ∧
    o.problems = Node.reportedAll o.children := by
  have hwalk : o.walk = Node.preorderAll o.children := Node.walk_eq_preorderAll o.children
  refine ⟨?_, fun _ => Node.lists_iff, hwalk, ?_, ?_⟩
  · intro nodes
    rw [Walk.yields_iff, Walk.pending_start]
  · have hsize : (Walk.start o.children).size = Node.sizeAll o.children := by
      rw [Walk.size, Walk.start, List.reverse_reverse]
    rw [Outline.countNodes, ← hsize]
    exact (Walk.yields_visits (Walk.start o.children)).length_eq
  · rw [Outline.problems, hwalk, Node.filterMap_problem?_preorderAll]

end Precis
