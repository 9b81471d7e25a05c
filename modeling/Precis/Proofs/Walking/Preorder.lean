import Precis.Node.Walk
import Precis.ParseTree

/-! # Rows of nodes and the order in which they are visited -/

namespace Precis

namespace Node

/-! ## Induction on rows -/

/-- A row is empty, or starts with a leaf, or starts with a branch whose children are a row
themselves. -/
@[elab_as_elim]
theorem rowInduction {motive : List Node → Prop} (nil : motive [])
    (leaf : ∀ item rest, motive rest → motive (leaf item :: rest))
    (branch : ∀ head children rest, motive children → motive rest →
      motive (branch head children :: rest))
    (nodes : List Node) : motive nodes := by
  -- A node is handled together with the row that follows it.
  refine @Node.rec_1 (fun node => ∀ rest, motive rest → motive (node :: rest)) motive
    ?_ ?_ nil ?_ nodes
  · intro head children hchildren rest hrest
    exact branch head children rest hchildren hrest
  · exact leaf
  · intro node rest hnode hrest
    exact hnode rest hrest

/-! ## Visiting order -/

theorem preorder_eq (node : Node) : node.preorder = node :: preorderAll node.children := by
  cases node <;> simp [preorder, preorderAll, children]

theorem preorderAll_append (xs ys : List Node) :
    preorderAll (xs ++ ys) = preorderAll xs ++ preorderAll ys := by
  induction xs with
  | nil => simp [preorderAll]
  | cons x xs ih => simp [preorderAll, ih, List.append_assoc]

theorem mem_preorderAll_of_mem {node : Node} {nodes : List Node} (h : node ∈ nodes) :
    node ∈ preorderAll nodes := by
  induction nodes with
  | nil => cases h
  | cons first rest ih =>
      rw [preorderAll, preorder_eq]
      rcases List.mem_cons.mp h with rfl | h
      · exact List.mem_append_left _ List.mem_cons_self
      · exact List.mem_append_right _ (ih h)

theorem mem_preorderAll_of_child {node child : Node} {nodes : List Node}
    (h : node ∈ preorderAll nodes) (hchild : child ∈ node.children) :
    child ∈ preorderAll nodes := by
  induction nodes using rowInduction with
  | nil => cases h
  | leaf item rest ih =>
      simp only [preorderAll, preorder, List.singleton_append, List.mem_cons] at h ⊢
      rcases h with rfl | h
      · cases hchild
      · exact .inr (ih h)
  | branch head children rest ihc ihr =>
      simp only [preorderAll, preorder, List.cons_append, List.mem_cons, List.mem_append] at h ⊢
      rcases h with rfl | h | h
      · exact .inr (.inl (mem_preorderAll_of_mem hchild))
      · exact .inr (.inl (ihc h))
      · exact .inr (.inr (ihr h))

end Node

/-! ## Walking -/

namespace Walk

variable {w rest : Walk} {node : Node}

/-- What a walk has still to visit, in the recursive order: on the stack, the siblings that wait on
each level stand in reverse, those of the innermost level on top. -/
def pending (w : Walk) : List Node :=
  Node.preorderAll w.stack.toList.reverse

theorem pending_start (roots : List Node) : (start roots).pending = Node.preorderAll roots := by
  rw [pending, start, List.reverse_reverse]

/-- A step visits the first pending node and leaves the others pending. -/
theorem pending_of_next? (h : w.next? = some (node, rest)) :
    w.pending = node :: rest.pending := by
  obtain ⟨below, hstack, hrest⟩ := next?_eq_some_iff.mp h
  simp only [pending, hstack, hrest, Array.toList_push, Array.toList_appendList,
    List.reverse_append, List.reverse_singleton, List.reverse_reverse, List.singleton_append]
  rw [Node.preorderAll, Node.preorder_eq, Node.preorderAll_append, List.cons_append]

theorem pending_eq_nil_of_next? (h : w.next? = none) : w.pending = [] := by
  rw [next?, Option.map_eq_none_iff, Array.back?_eq_none_iff] at h
  rw [pending, h]
  rfl

theorem visits_eq_pending (w : Walk) : w.visits = w.pending := by
  fun_induction visits w with
  | case1 w hnext => rw [pending_eq_nil_of_next? hnext]
  | case2 w node rest hnext ih => rw [ih, pending_of_next? hnext]

end Walk

/-- A walk visits the nodes of a row of trees in the recursive order. -/
theorem Node.walk_eq_preorderAll (roots : List Node) : walk roots = preorderAll roots := by
  rw [walk, Walk.visits_eq_pending, Walk.pending_start]

/-! ## Parse trees -/

namespace ParseTree

/-- What follows for a tree from the same for its children holds for every tree. -/
@[elab_as_elim]
theorem childInduction {motive : ParseTree → Prop}
    (node : ∀ t, (∀ c ∈ t.children, motive c) → motive t) (t : ParseTree) : motive t := by
  induction hsize : t.size using Nat.strongRecOn generalizing t with
  | ind n ih =>
      apply node
      intro c hc
      exact ih c.size (hsize ▸ size_lt_of_mem hc) c rfl

mutual

/-- A node and all nodes below it, each before its children. -/
def preorder : ParseTree → List ParseTree
  | ⟨kind, role, named, missing, faulty, start, stop, children⟩ =>
    ⟨kind, role, named, missing, faulty, start, stop, children⟩ :: preorderAll children

/-- All nodes of a row of trees, each before its children. -/
def preorderAll : List ParseTree → List ParseTree
  | [] => []
  | t :: ts => t.preorder ++ preorderAll ts

end

theorem preorderAll_eq_flatMap (ts : List ParseTree) : preorderAll ts = ts.flatMap preorder := by
  induction ts with
  | nil => rfl
  | cons t ts ih => rw [preorderAll, ih, List.flatMap_cons]

theorem preorder_eq (t : ParseTree) : t.preorder = t :: t.children.flatMap preorder := by
  cases t
  rw [preorder, preorderAll_eq_flatMap]

theorem mem_preorder_self (t : ParseTree) : t ∈ t.preorder := by
  rw [preorder_eq]
  exact List.mem_cons_self

mutual

/-- What stands below a node of a tree is in the tree. -/
theorem mem_preorder_of_child {t c : ParseTree} (hc : c ∈ t.children) :
    ∀ {root : ParseTree}, t ∈ root.preorder → c ∈ root.preorder
  | ⟨kind, role, named, missing, faulty, start, stop, children⟩, ht => by
    rw [preorder] at ht ⊢
    apply List.mem_cons_of_mem
    rcases List.mem_cons.mp ht with rfl | ht
    · rw [preorderAll_eq_flatMap]
      exact List.mem_flatMap.mpr ⟨c, hc, mem_preorder_self c⟩
    · exact mem_preorderAll_of_child hc ht

theorem mem_preorderAll_of_child {t c : ParseTree} (hc : c ∈ t.children) :
    ∀ {ts : List ParseTree}, t ∈ preorderAll ts → c ∈ preorderAll ts
  | [], ht => nomatch ht
  | u :: us, ht => by
    rw [preorderAll, List.mem_append] at ht ⊢
    exact ht.imp (mem_preorder_of_child hc) (mem_preorderAll_of_child hc)

end

end ParseTree

/-! ## Places -/

/-- A node in the list of all nodes: the heads of the branches around it, outermost first, and
its label. -/
structure Entry where
  above : List Head
  label : Label

/-- How deep a node is nested. -/
def Entry.depth (e : Entry) : Nat :=
  e.above.length

namespace Node

mutual

/-- The entries of a node and of all nodes below it, each before its children. -/
def entries (above : List Head) : Node → List Entry
  | branch head children => ⟨above, .head head⟩ :: entriesAll (above ++ [head]) children
  | leaf item => [⟨above, .leaf item⟩]

/-- The entries of all nodes of a row of trees, each before its children. -/
def entriesAll (above : List Head) : List Node → List Entry
  | [] => []
  | node :: rest => node.entries above ++ entriesAll above rest

end

theorem above_prefix_of_mem_entriesAll {above : List Head} {nodes : List Node} {e : Entry}
    (h : e ∈ entriesAll above nodes) : above <+: e.above := by
  induction nodes using rowInduction generalizing above with
  | nil => simp [entriesAll] at h
  | leaf item rest ih =>
      simp only [entriesAll, entries, List.singleton_append, List.mem_cons] at h
      rcases h with rfl | h
      · exact List.prefix_rfl
      · exact ih h
  | branch head children rest ihc ihr =>
      simp only [entriesAll, entries, List.cons_append, List.mem_cons, List.mem_append] at h
      rcases h with rfl | h | h
      · exact List.prefix_rfl
      · exact (List.prefix_append above [head]).trans (ihc h)
      · exact ihr h

/-! ## Properties of all labels -/

/-- Every node of a row of trees, at any depth, has a label with a property. -/
def Everywhere (P : Label → Prop) (nodes : List Node) : Prop :=
  ∀ node ∈ preorderAll nodes, P node.label

instance {P : Label → Prop} [DecidablePred P] (nodes : List Node) :
    Decidable (Everywhere P nodes) :=
  inferInstanceAs (Decidable (∀ node ∈ preorderAll nodes, P node.label))

section Everywhere

variable {P Q : Label → Prop}

@[simp] theorem everywhere_nil : Everywhere P [] := by
  simp [Everywhere, preorderAll]

@[simp] theorem everywhere_append {xs ys : List Node} :
    Everywhere P (xs ++ ys) ↔ Everywhere P xs ∧ Everywhere P ys := by
  simp only [Everywhere, preorderAll_append, List.forall_mem_append]

@[simp] theorem everywhere_leaf_cons {item : Leaf} {rest : List Node} :
    Everywhere P (leaf item :: rest) ↔ P (.leaf item) ∧ Everywhere P rest := by
  simp [Everywhere, preorderAll, preorder, label]

@[simp] theorem everywhere_branch_cons {head : Head} {children rest : List Node} :
    Everywhere P (branch head children :: rest) ↔
      P (.head head) ∧ Everywhere P children ∧ Everywhere P rest := by
  simp [Everywhere, preorderAll, preorder, label, or_imp, forall_and]

theorem everywhere_iff_forall {nodes : List Node} :
    Everywhere P nodes ↔ ∀ node ∈ nodes, Everywhere P [node] := by
  induction nodes with
  | nil => simp
  | cons node rest ih =>
      rw [← List.singleton_append, everywhere_append, ih, List.forall_mem_append]
      simp

theorem everywhere_flatMap {α : Type} {xs : List α} {f : α → List Node}
    (h : ∀ x ∈ xs, Everywhere P (f x)) : Everywhere P (xs.flatMap f) := by
  induction xs with
  | nil => simp
  | cons x xs ih =>
      rw [List.flatMap_cons, everywhere_append]
      exact ⟨h x List.mem_cons_self, ih fun y hy => h y (List.mem_cons_of_mem _ hy)⟩

theorem everywhere_ite {c : Prop} [Decidable c] {xs ys : List Node} (hxs : Everywhere P xs)
    (hys : Everywhere P ys) : Everywhere P (if c then xs else ys) := by
  split
  · exact hxs
  · exact hys

theorem everywhere_toList {found : Option Node}
    (h : ∀ node, found = some node → Everywhere P [node]) : Everywhere P found.toList := by
  cases found with
  | none => exact everywhere_nil
  | some node => exact h node rfl

theorem Everywhere.of_mem {nodes : List Node} (h : Everywhere P nodes) {node : Node}
    (hnode : node ∈ nodes) : P node.label :=
  h node (mem_preorderAll_of_mem hnode)

theorem Everywhere.imp {nodes : List Node} (h : Everywhere P nodes)
    (himp : ∀ l, P l → Q l) : Everywhere Q nodes :=
  fun node hnode => himp node.label (h node hnode)

end Everywhere

end Node

/-- The entries of all nodes of an outline below its root. -/
def Outline.entries (o : Outline) : List Entry :=
  Node.entriesAll [] o.children

end Precis
