import Precis.Proofs.Outlining.Branches
import Precis.Proofs.Outlining.Safety

/-! # Nested locations

If the ranges of a parse tree of a Python or Java source are nested, so are the locations in its
outline: every node lies within the node that owns it, in bytes and in lines, although members are
taken out of blocks, decorated definitions and initialisers and doc comments are put together. -/

namespace Precis

/-! ## Locations within each other -/

/-- A location lies within another one, in bytes and in lines. -/
structure Location.Within (l outer : Location) : Prop where
  startByte : outer.startByte ≤ l.startByte
  endByte : l.endByte ≤ outer.endByte
  startLine : outer.startLine ≤ l.startLine
  endLine : l.endLine ≤ outer.endLine

namespace ParseTree

/-- Every node of a tree covers the ranges of its children. -/
def Enclosing (t : ParseTree) : Prop :=
  t.Throughout fun u => ∀ c ∈ u.children, u.start ≤ c.start ∧ c.stop ≤ u.stop

theorem within_location {source : List Char} {outer a b : ParseTree}
    (hstart : outer.start ≤ a.start) (hstop : b.stop ≤ outer.stop) :
    ((a.location source).upTo (b.location source)).Within (outer.location source) where
  startByte := hstart
  endByte := hstop
  startLine := Nat.succ_le_succ (Text.lineColumn_fst_mono hstart source)
  endLine := Nat.succ_le_succ (Text.lineColumn_fst_mono hstop source)

theorem Enclosing.placed_of_le {t outer : ParseTree} (h : t.Enclosing)
    (hstart : outer.start ≤ t.start) (hstop : t.stop ≤ outer.stop) (source : List Char) :
    t.Placed (·.Within (outer.location source)) source := by
  -- The outer node stays the same on the way down, so the bounds are carried along.
  induction h with
  | intro here below ih =>
      refine .intro ⟨within_location hstart hstop, ?_⟩ ?_
      · apply List.pairwise_of_forall_mem_list
        intro a ha b hb
        exact within_location (Nat.le_trans hstart (here a ha).1) (Nat.le_trans (here b hb).2 hstop)
      · intro c hc
        exact ih c hc (Nat.le_trans hstart (here c hc).1) (Nat.le_trans (here c hc).2 hstop)

/-- All nodes below a node lie within it. -/
theorem Enclosing.placed {t : ParseTree} (h : t.Enclosing) (source : List Char) :
    t.Placed (·.Within (t.location source)) source :=
  h.placed_of_le (Nat.le_refl _) (Nat.le_refl _) source

end ParseTree

/-! ## Nested nodes -/

/-- The nodes that a branch owns lie within it. -/
def Nested (head : Head) (children : List Node) : Prop :=
  ∀ child ∈ children, child.location.Within head.location

@[simp] theorem Head.location_withDoc (head : Head) (c : Comment) :
    (head.withDoc c).location = head.location := by
  cases head <;> rfl

@[simp] theorem Head.kind_withDoc (head : Head) (c : Comment) :
    (head.withDoc c).kind = head.kind := by
  cases head <;> rfl

theorem Node.Regular.location {ok : Location → Prop} {nodes : List Node} (h : Regular ok nodes)
    {node : Node} (hnode : node ∈ nodes) : ok node.location := by
  rw [← location_label]
  exact (Everywhere.of_mem h hnode).location

theorem Java.nested_member {source : List Char} {t : ParseTree} (h : t.Enclosing) {owner : Owner}
    {head : Head} {children : List Node} (hmem : .branch head children ∈ member source owner t) :
    Nested head children := by
  have hregular := (outlined_of_placed (h.placed source)).member owner
  have hlocation : head.location = t.location source := (mem_member hmem).1
  have hbranch := Node.regular_iff_forall.mp hregular _ hmem
  intro child hchild
  rw [hlocation]
  exact (Node.regular_branch.mp hbranch).2.location hchild

theorem Python.nested_class? {source : List Char} {t : ParseTree} (h : t.Enclosing)
    {decorators : List (List Char)} {head : Head} {children : List Node}
    (hclass : class? source decorators t = some (.branch head children)) :
    Nested head children := by
  -- This covers all that the class owns, the fields that its initialiser declares as well.
  have hregular := (outlined_of_placed (h.placed source)).class? decorators
  have hlocation : head.location = t.location source := by
    rw [class?_eq] at hclass
    obtain ⟨declared, hdeclared, hnode⟩ := Option.map_eq_some_iff.mp hclass
    obtain ⟨rfl, -⟩ := Node.branch.inj hnode
    obtain ⟨name, -, rfl⟩ := Option.map_eq_some_iff.mp hdeclared
    rfl
  rw [hclass] at hregular
  intro child hchild
  rw [hlocation]
  exact (Node.regular_branch.mp hregular).2.location hchild

theorem nodes_nested {g : Grammar} (hg : g = .python ∨ g = .java) {text : List Char}
    {tree : ParseTree} (h : tree.Enclosing) : Node.EveryBranch Nested (g.nodes text tree) := by
  rcases hg with rfl | rfl
  · apply Python.everyBranch_outline
    apply ParseTree.Throughout.of_forall_mem
    intro t ht decorators head children
    exact Python.nested_class? (h.of_mem_preorder ht)
  · refine (Java.branching_of_throughout ?_ ?_).members .file
    · intro head children c hnested child hchild
      rw [Head.location_withDoc]
      exact hnested child hchild
    · apply ParseTree.Throughout.of_forall_mem
      intro t ht owner head children
      exact Java.nested_member (h.of_mem_preorder ht)

/-- The outline of a Python or Java source stands where its parse tree stands, its nodes lie within
it, and each of them lies within the node that owns it. -/
theorem outline_nested {g : Grammar} (hg : g = .python ∨ g = .java) (path : String)
    (bytes : List UInt8) {tree : ParseTree} (h : tree.Enclosing) :
    (g.outline path bytes tree).head.location = tree.location (Text.decodeLossy bytes) ∧
    (∀ node ∈ (g.outline path bytes tree).children,
      node.location.Within (g.outline path bytes tree).head.location) ∧
    ∀ node ∈ (g.outline path bytes tree).walk, ∀ child ∈ node.children,
      child.location.Within node.location := by
  have hplaced := h.placed (Text.decodeLossy bytes)
  have hnested := Node.EveryBranch.outline path bytes (nodes_nested hg h)
  refine ⟨rfl, ?_, ?_⟩
  · intro node hnode
    rw [← location_label]
    exact ((outline_labels g path hplaced).of_mem hnode).2
  · intro node hnode child hchild
    cases node with
    | leaf item => cases hchild
    | branch head children => exact hnested head children hnode child hchild

/-! ## A specimen -/

/-- A record body with a remark and two doc comments. -/
def recordBody : ParseTree :=
  ⟨"class_body", "body", true, false, false, 16, 51,
    [⟨"\x7b", "", false, false, false, 16, 17, []⟩,
     ⟨"line_comment", "", true, false, false, 20, 27, []⟩,
     ⟨"block_comment", "", true, false, false, 30, 38, []⟩,
     ⟨"block_comment", "", true, false, false, 41, 49, []⟩,
     ⟨"\x7d", "", false, false, false, 50, 51, []⟩]⟩

/-- The parse tree of `record P(int x) { // note /** a */ /** b */ }`, with a line for each part of
the body. -/
def recordTree : ParseTree :=
  ⟨"program", "", true, false, false, 0, 51,
    [⟨"record_declaration", "", true, false, false, 0, 51,
      [⟨"record", "", false, false, false, 0, 6, []⟩,
       ⟨"identifier", "name", true, false, false, 7, 8, []⟩,
       ⟨"formal_parameters", "parameters", true, false, false, 8, 15,
        [⟨"(", "", false, false, false, 8, 9, []⟩,
         ⟨"formal_parameter", "", true, false, false, 9, 14,
          [⟨"integral_type", "type", true, false, false, 9, 12, []⟩,
           ⟨"identifier", "name", true, false, false, 13, 14, []⟩]⟩,
         ⟨")", "", false, false, false, 14, 15, []⟩]⟩,
       recordBody]⟩]⟩

/-- The bytes of a record with comments in its body. -/
def recordBytes : List UInt8 :=
  Text.encode "record P(int x) \x7b\n  // note\n  /** a */\n  /** b */\n\x7d".toList

theorem recordTree_enclosing : recordTree.Enclosing :=
  .of_forall_mem (by decide)

/-- The component of the record and the comments in its body lie within it. -/
theorem outline_nested_record :
    recordTree.Enclosing ∧
    (Grammar.java.outline "P.java" recordBytes recordTree).head.location =
      recordTree.location (Text.decodeLossy recordBytes) ∧
    (∀ node ∈ (Grammar.java.outline "P.java" recordBytes recordTree).children,
      node.location.Within (Grammar.java.outline "P.java" recordBytes recordTree).head.location) ∧
    ∀ node ∈ (Grammar.java.outline "P.java" recordBytes recordTree).walk,
      ∀ child ∈ node.children, child.location.Within node.location :=
  ⟨recordTree_enclosing, outline_nested (.inr rfl) "P.java" recordBytes recordTree_enclosing⟩

end Precis
