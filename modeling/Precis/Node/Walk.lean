import Precis.Node

/-!
# Walking outlines

All nodes of an outline, each before its children and children from left to right. A walk works off
a stack of nodes still to be visited; `preorder` is the recursive listing.
-/

namespace Precis

namespace Node

mutual

/-- The number of nodes of a tree. -/
def size : Node → Nat
  | branch _ children => sizeAll children + 1
  | leaf _ => 1

/-- The number of nodes of a row of trees. -/
def sizeAll : List Node → Nat
  | [] => 0
  | node :: rest => node.size + sizeAll rest

end

mutual

/-- A node and all nodes below it, each before its children. -/
def preorder : Node → List Node
  | branch head children => branch head children :: preorderAll children
  | leaf item => [leaf item]

/-- All nodes of a row of trees, each before its children. -/
def preorderAll : List Node → List Node
  | [] => []
  | node :: rest => node.preorder ++ preorderAll rest

end

theorem size_eq (node : Node) : node.size = sizeAll node.children + 1 := by
  cases node <;> simp [size, sizeAll, children]

theorem sizeAll_append (xs ys : List Node) : sizeAll (xs ++ ys) = sizeAll xs + sizeAll ys := by
  induction xs with
  | nil => simp [sizeAll]
  | cons x xs ih => simp [sizeAll, ih, Nat.add_assoc]

end Node

/-! ## Walks -/

/-- A walk that is under way: the nodes that it has still to visit with all that stands below them,
the next one last. -/
structure Walk where
  stack : Array Node

namespace Walk

/-- The walk over a row of trees, before its first step. -/
def start (roots : List Node) : Walk where
  stack := roots.reverse.toArray

/-- One step: the node that is next leaves the stack, and its children take its place. -/
def next? (w : Walk) : Option (Node × Walk) :=
  w.stack.back?.map fun node => (node, ⟨w.stack.pop ++ node.children.reverse⟩)

theorem next?_eq_some_iff {w rest : Walk} {node : Node} :
    w.next? = some (node, rest) ↔
      ∃ below : Array Node, w.stack = below.push node ∧
        rest.stack = below ++ node.children.reverse := by
  simp only [next?, Option.map_eq_some_iff, Array.back?_eq_some_iff]
  constructor
  · rintro ⟨_, ⟨below, hstack⟩, heq⟩
    obtain ⟨rfl, rfl⟩ := Prod.mk.inj heq
    exact ⟨below, hstack, by rw [hstack, Array.pop_push]⟩
  · rintro ⟨below, hstack, hrest⟩
    refine ⟨node, ⟨below, hstack⟩, ?_⟩
    rw [hstack, Array.pop_push, ← hrest]

/-- The number of nodes that a walk has still to visit. -/
def size (w : Walk) : Nat :=
  Node.sizeAll w.stack.toList.reverse

/-- Every step visits one of them. -/
theorem size_of_next? {w rest : Walk} {node : Node} (h : w.next? = some (node, rest)) :
    w.size = rest.size + 1 := by
  obtain ⟨below, hstack, hrest⟩ := next?_eq_some_iff.1 h
  simp only [size, hstack, hrest, Array.toList_push, Array.toList_appendList, List.reverse_append,
    List.reverse_reverse, List.reverse_singleton, List.singleton_append, Node.sizeAll,
    Node.sizeAll_append, Node.size_eq]
  omega

/-- The nodes that a walk visits from now on, in order. -/
def visits (w : Walk) : List Node :=
  match _hnext : w.next? with
  | none => []
  | some (node, rest) => node :: rest.visits
termination_by w.size
decreasing_by
  have := size_of_next? _hnext
  omega

end Walk

namespace Node

/-- All nodes of a row of trees, in the order in which a walk visits them. -/
def walk (roots : List Node) : List Node :=
  (Walk.start roots).visits

end Node

namespace Outline

/-- All nodes of an outline below its root. -/
def walk (o : Outline) : List Node :=
  Node.walk o.children

/-- The number of nodes of an outline below its root. -/
def countNodes (o : Outline) : Nat :=
  o.walk.length

/-- The problems that an outline reports, in order. -/
def problems (o : Outline) : List Problem :=
  o.walk.filterMap Node.problem?

/-- Whether an outline reports a problem. -/
def hasProblems (o : Outline) : Bool :=
  !o.problems.isEmpty

end Outline

end Precis
