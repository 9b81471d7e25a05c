import Precis.Proofs.Pruning.Labels
import Precis.Proofs.Walking.Preorder
import Mathlib.Data.List.Forall2

/-! # What pruning leaves

Pruning does two things at once: it looks for the first breach among the kept enums, and it builds
what is left. Here the two are taken apart. What is left is then described without recursion, as a
selection from the list of all nodes with their places. -/

namespace Precis

namespace Selection

/-! ## Remnants and breaches -/

mutual

/-- What is left of a node when no enum is looked at. -/
def remnant (s : Selection) : Node → Option Node
  | .leaf item => if s.keepsLeaf item then some (.leaf (s.trimLeaf item)) else none
  | .branch head children =>
    if s.keepsHead head then some (.branch (s.trimHead head) (s.remnants children)) else none

/-- What is left of a row of nodes when no enum is looked at. -/
def remnants (s : Selection) : List Node → List Node
  | [] => []
  | node :: rest => (s.remnant node).toList ++ s.remnants rest

end

theorem remnants_append (s : Selection) (xs ys : List Node) :
    s.remnants (xs ++ ys) = s.remnants xs ++ s.remnants ys := by
  induction xs with
  | nil => rfl
  | cons x xs ih => rw [List.cons_append, remnants, ih, remnants, List.append_assoc]

mutual

/-- The breaches of the kept enums at or below a node, in walking order. -/
def breaches (s : Selection) : Node → List EnumBreach
  | .leaf _ => []
  | .branch head children =>
    if s.keepsHead head then (breach? head children).toList ++ s.breachesAll children else []

/-- The breaches of the kept enums of a row of trees, in walking order. -/
def breachesAll (s : Selection) : List Node → List EnumBreach
  | [] => []
  | node :: rest => s.breaches node ++ s.breachesAll rest

end

/-- The outcome of pruning, given all breaches and all that is left: the first breach counts. -/
def outcome {α : Type} (found : List EnumBreach) (left : α) : Except EnumBreach α :=
  match found with
  | [] => .ok left
  | breach :: _ => .error breach

theorem map_outcome {α β : Type} (f : α → β) (found : List EnumBreach) (left : α) :
    (outcome found left).map f = outcome found (f left) := by
  cases found <;> rfl

theorem outcome_bind_outcome {α β : Type} (found later : List EnumBreach) (left : α)
    (f : α → β) :
    (outcome found left >>= fun a => outcome later (f a)) = outcome (found ++ later) (f left) := by
  cases found <;> rfl

/-- The outcome for a node and the one for the row behind it make up the outcome for both. -/
theorem pruneNodes_cons_eq_outcome {s : Selection} {node : Node} {rest : List Node}
    (hnode : s.pruneNode node = outcome (s.breaches node) (s.remnant node))
    (hrest : s.pruneNodes rest = outcome (s.breachesAll rest) (s.remnants rest)) :
    s.pruneNodes (node :: rest) =
      outcome (s.breachesAll (node :: rest)) (s.remnants (node :: rest)) := by
  have hpair : ∀ kept : Option Node,
      (s.pruneNodes rest >>= fun others => pure (kept.toList ++ others)) =
        outcome (s.breachesAll rest) (kept.toList ++ s.remnants rest) := by
    intro kept
    rw [hrest]
    exact map_outcome (kept.toList ++ ·) _ _
  rw [pruneNodes, hnode]
  simp only [hpair]
  rw [outcome_bind_outcome, breachesAll, remnants]

/-- Pruning refuses on the first breach, and otherwise gives the remnants. -/
theorem pruneNodes_eq_outcome (s : Selection) (nodes : List Node) :
    s.pruneNodes nodes = outcome (s.breachesAll nodes) (s.remnants nodes) := by
  induction nodes using Node.rowInduction with
  | nil => rfl
  | leaf item rest ih =>
      apply pruneNodes_cons_eq_outcome _ ih
      rfl
  | branch head children rest ihc ihr =>
      apply pruneNodes_cons_eq_outcome _ ihr
      rw [pruneNode, breaches, remnant]
      by_cases hkeep : s.keepsHead head
      · simp only [hkeep, if_true]
        cases hb : breach? head children with
        | some b => rfl
        | none =>
            rw [ihc]
            exact map_outcome _ _ _
      · simp only [hkeep]
        rfl

/-- Pruning gives a result exactly if no kept enum has a breach, and then it is what is left. -/
theorem prune_eq_ok_iff {s : Selection} {f g : Outline} :
    s.prune f = .ok g ↔
      s.breachesAll f.children = [] ∧ g = { f with children := s.remnants f.children } := by
  rw [prune, pruneNodes_eq_outcome]
  cases hb : s.breachesAll f.children with
  | nil => simp [outcome, Except.map, eq_comm]
  | cons b bs => simp [outcome, Except.map]

/-! ## The list of what is left -/

/-- Whether a node is left: it and every branch around it are kept. -/
def passes (s : Selection) (e : Entry) : Bool :=
  e.above.all s.keepsHead && s.keepsLabel e.label

/-- The entry of a node that is left. -/
def trimEntry (s : Selection) (e : Entry) : Entry where
  above := e.above.map s.trimHead
  label := s.trimLabel e.label

/-- Nothing passes below a branch that is dropped. -/
theorem filter_passes_of_dropped {s : Selection} {above : List Head} {nodes : List Node}
    (h : above.all s.keepsHead = false) :
    (Node.entriesAll above nodes).filter s.passes = [] := by
  apply List.filter_eq_nil_iff.mpr
  intro e he hpass
  obtain ⟨below, hbelow⟩ := Node.above_prefix_of_mem_entriesAll he
  rw [passes, ← hbelow, List.all_append, h] at hpass
  simp at hpass

/-- Below branches that are all kept, the entries of the remnants are the trimmed entries that
pass, in order. -/
theorem entriesAll_remnants {s : Selection} {above : List Head} (nodes : List Node)
    (h : above.all s.keepsHead = true) :
    Node.entriesAll (above.map s.trimHead) (s.remnants nodes) =
      ((Node.entriesAll above nodes).filter s.passes).map s.trimEntry := by
  induction nodes using Node.rowInduction generalizing above with
  | nil => rfl
  | leaf item rest ih =>
      rw [remnants, remnant]
      by_cases hkeep : s.keepsLeaf item
      · have hpass : s.passes ⟨above, .leaf item⟩ = true := by
          simp [passes, keepsLabel, h, hkeep]
        simp [hkeep, hpass, Node.entriesAll, Node.entries, ih h, trimEntry, trimLabel]
      · have hpass : s.passes ⟨above, .leaf item⟩ = false := by
          simp [passes, keepsLabel, hkeep]
        simp [hkeep, hpass, Node.entriesAll, Node.entries, ih h]
  | branch head children rest ihc ihr =>
      rw [remnants, remnant]
      by_cases hkeep : s.keepsHead head
      · have hbelow : (above ++ [head]).all s.keepsHead = true := by
          simp [List.all_append, h, hkeep]
        have hpass : s.passes ⟨above, .head head⟩ = true := by
          simp [passes, keepsLabel, h, hkeep]
        have hchildren := ihc hbelow
        rw [List.map_append, List.map_singleton] at hchildren
        simp [hkeep, hpass, hchildren, Node.entriesAll, Node.entries, ihr h, trimEntry, trimLabel]
      · have hbelow : (above ++ [head]).all s.keepsHead = false := by
          simp [List.all_append, hkeep]
        have hpass : s.passes ⟨above, .head head⟩ = false := by
          simp [passes, keepsLabel, hkeep]
        simp [hkeep, hpass, Node.entriesAll, Node.entries, ihr h, filter_passes_of_dropped hbelow]

theorem prune_entries {s : Selection} {f g : Outline} (h : s.prune f = .ok g) :
    g.entries = (f.entries.filter s.passes).map s.trimEntry := by
  obtain ⟨-, rfl⟩ := prune_eq_ok_iff.mp h
  exact @entriesAll_remnants s [] f.children rfl

/-- What pruning leaves, node by node: exactly the nodes that are kept together with all branches
around them, in their order and at their depth, each with a trimmed label. -/
theorem prune_exact {s : Selection} {f g : Outline} (h : s.prune f = .ok g) :
    g.head = f.head ∧
      List.Forall₂
        (fun before after => after.depth = before.depth ∧ s.Trimmed before.label after.label)
        (f.entries.filter s.passes) g.entries := by
  refine ⟨?_, ?_⟩
  · obtain ⟨-, rfl⟩ := prune_eq_ok_iff.mp h
    rfl
  · rw [prune_entries h, List.forall₂_map_right_iff]
    apply List.forall₂_same.mpr
    intro e _
    exact ⟨by simp [Entry.depth, trimEntry], trimmed_trimLabel s e.label⟩

end Selection

/-! ## The labels of what is left -/

/-- What holds of every kept label after trimming holds everywhere in what is left. -/
theorem everywhere_remnants {P Q : Label → Prop} {s : Selection} {nodes : List Node}
    (h : Node.Everywhere P nodes)
    (himp : ∀ l, P l → s.keepsLabel l = true → Q (s.trimLabel l)) :
    Node.Everywhere Q (s.remnants nodes) := by
  induction nodes using Node.rowInduction with
  | nil => exact Node.everywhere_nil
  | leaf item rest ih =>
      obtain ⟨hitem, hrest⟩ := Node.everywhere_leaf_cons.mp h
      rw [Selection.remnants, Selection.remnant]
      by_cases hkeep : s.keepsLeaf item
      · rw [if_pos hkeep]
        exact Node.everywhere_leaf_cons.mpr ⟨himp (.leaf item) hitem hkeep, ih hrest⟩
      · rw [if_neg hkeep]
        exact ih hrest
  | branch head children rest ihc ihr =>
      obtain ⟨hhead, hchildren, hrest⟩ := Node.everywhere_branch_cons.mp h
      rw [Selection.remnants, Selection.remnant]
      by_cases hkeep : s.keepsHead head
      · rw [if_pos hkeep]
        exact Node.everywhere_branch_cons.mpr
          ⟨himp (.head head) hhead hkeep, ihc hchildren, ihr hrest⟩
      · rw [if_neg hkeep]
        exact ihr hrest

/-! ## A specimen -/

/-- A private class with a public method, an enum with a member and a private field, and a class
that only holds a comment. -/
def Outline.specimen : Outline where
  head := { path := "Paint.java", language := .java }
  children :=
    [.branch (.type { kind := .classType, name := "Mixer", visibility := .priv, location := {} })
      [.leaf (.function { name := "stir", visibility := .pub, location := {} })],
     .branch
      (.type
        { kind := .enumType, name := "Colour", visibility := .pub, decorators := ["@Stable"]
          doc := some ⟨"/** Colours. */", .doc, {}⟩, location := {} })
      [.leaf (.field (Field.ofEnum "RED" "Colour" {})),
       .leaf (.field
        { name := "code", visibility := .priv, value := some "0xff0000", location := {} })],
     .branch (.type { kind := .classType, name := "Brush", visibility := .pub, location := {} })
      [.leaf (.comment ⟨"// todo", .line, {}⟩)]]

namespace Selection

-- The enum, its member and the emptied class are left.
example : (Outline.specimen.entries.filter signatures.passes).map Entry.depth = [0, 1, 0] := by
  decide

theorem prune_exact_specimen :
    ∃ g, signatures.prune .specimen = .ok g ∧ g.head = Outline.specimen.head ∧
      List.Forall₂
        (fun before after =>
          after.depth = before.depth ∧ signatures.Trimmed before.label after.label)
        (Outline.specimen.entries.filter signatures.passes) g.entries :=
  ⟨_, rfl, prune_exact rfl⟩

end Selection

end Precis
