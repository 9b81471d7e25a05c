import Precis.Proofs.Walking.Preorder

/-! Parse trees whose ranges are in order: a node does not end before it starts, and siblings
follow each other. Ranges in order give locations in order, because the line of an offset grows
with the offset. -/

namespace Precis

/-! ## Lines -/

namespace Text

theorem line_le_lineColumn_go (offset line lineStart position : Nat) (cs : List Char) :
    line ≤ (lineColumn.go offset line lineStart position cs).1 := by
  induction cs generalizing line lineStart position with
  | nil => exact Nat.le_refl line
  | cons c cs ih =>
      rw [lineColumn.go]
      split
      · exact Nat.le_refl line
      · split
        · exact Nat.le_trans (Nat.le_succ line) (ih _ _ _)
        · exact ih _ _ _

/-- A later offset stands in the same line or in a later one. -/
theorem lineColumn_fst_mono {m n : Nat} (h : m ≤ n) (cs : List Char) :
    (lineColumn m cs).1 ≤ (lineColumn n cs).1 := by
  -- Both scans are in the same state up to the earlier offset.
  have hgo : ∀ line lineStart position,
      (lineColumn.go m line lineStart position cs).1 ≤
        (lineColumn.go n line lineStart position cs).1 := by
    induction cs with
    | nil =>
        intro line lineStart position
        exact Nat.le_refl line
    | cons c cs ih =>
        intro line lineStart position
        by_cases hm : m ≤ position
        · rw [lineColumn.go, if_pos hm]
          exact line_le_lineColumn_go n line lineStart position (c :: cs)
        · have hn : ¬ n ≤ position := by omega
          rw [lineColumn.go, lineColumn.go, if_neg hm, if_neg hn]
          split
          · exact ih _ _ _
          · exact ih _ _ _
  exact hgo 0 0 0

end Text

theorem Location.inverted_eq_false_iff {l : Location} :
    l.inverted = false ↔ l.startByte ≤ l.endByte ∧ l.startLine ≤ l.endLine := by
  simp [inverted]

/-! ## Properties of all nodes of a parse tree -/

namespace ParseTree

theorem parts_sublist (t : ParseTree) : t.parts.Sublist t.children :=
  List.filter_sublist

/-- A property of a node and of all nodes below it. -/
inductive Throughout (P : ParseTree → Prop) : ParseTree → Prop where
  | intro {t : ParseTree} (here : P t) (below : ∀ c ∈ t.children, Throughout P c) :
      Throughout P t

namespace Throughout

variable {P Q : ParseTree → Prop} {t : ParseTree}

theorem here (h : t.Throughout P) : P t := by
  cases h with
  | intro here below => exact here

theorem child (h : t.Throughout P) {c : ParseTree} (hc : c ∈ t.children) : c.Throughout P := by
  cases h with
  | intro here below => exact below c hc

theorem part (h : t.Throughout P) {c : ParseTree} (hc : c ∈ t.parts) : c.Throughout P :=
  h.child (mem_of_mem_parts hc)

theorem child? (h : t.Throughout P) {c : ParseTree} {role : String}
    (hc : t.child? role = some c) : c.Throughout P :=
  h.child (mem_of_child? hc)

theorem of_forall (h : ∀ u, P u) (t : ParseTree) : t.Throughout P := by
  induction t using childInduction with
  | node t ih => exact .intro (h t) ih

/-- What holds of all nodes that are visited holds throughout. -/
theorem of_forall_mem {t : ParseTree} (h : ∀ u ∈ t.preorder, P u) : t.Throughout P := by
  induction t using childInduction with
  | node t ih =>
      refine .intro (h t (mem_preorder_self t)) ?_
      intro c hc
      apply ih c hc
      intro u hu
      apply h
      rw [preorder_eq]
      exact List.mem_cons_of_mem _ (List.mem_flatMap.mpr ⟨c, hc, hu⟩)

theorem of_mem_preorder {u : ParseTree} (h : t.Throughout P) (hu : u ∈ t.preorder) :
    u.Throughout P := by
  induction h with
  | @intro t here below ih =>
      rw [preorder_eq] at hu
      rcases List.mem_cons.mp hu with rfl | hu
      · exact .intro here below
      · obtain ⟨c, hc, hu⟩ := List.mem_flatMap.mp hu
        exact ih c hc hu

end Throughout

/-! ## Ranges in order -/

/-- No node ends before it starts, and siblings are in order and do not overlap. -/
def WellSpanned (t : ParseTree) : Prop :=
  t.Throughout fun u =>
    u.start ≤ u.stop ∧ u.children.Pairwise fun a b => a.stop ≤ b.start

/-- The location of every node is good, and so is the location from the start of a node to the end
of any of its later siblings. -/
def Placed (ok : Location → Prop) (source : List Char) (t : ParseTree) : Prop :=
  t.Throughout fun u =>
    ok (u.location source) ∧
      u.children.Pairwise fun a b => ok ((a.location source).upTo (b.location source))

theorem inverted_upTo_location {source : List Char} {a b : ParseTree} (h : a.start ≤ b.stop) :
    ((a.location source).upTo (b.location source)).inverted = false := by
  have hline := Text.lineColumn_fst_mono h source
  rw [Location.inverted_eq_false_iff]
  simp only [location, Location.upTo]
  omega

theorem WellSpanned.placed {t : ParseTree} (h : t.WellSpanned) (source : List Char) :
    t.Placed (fun l => l.inverted = false) source := by
  induction h with
  | intro here below ih =>
      obtain ⟨hrange, hsiblings⟩ := here
      refine .intro ⟨inverted_upTo_location hrange, ?_⟩ ih
      apply hsiblings.imp_of_mem
      intro a b ha hb hab
      have hleft := (below a ha).here.1
      have hright := (below b hb).here.1
      exact inverted_upTo_location (by omega)

theorem placed_of_forall {ok : Location → Prop} (h : ∀ l, ok l) (source : List Char)
    (t : ParseTree) : t.Placed ok source :=
  .of_forall (fun _ => ⟨h _, List.pairwise_of_forall fun _ _ => h _⟩) t

end ParseTree

end Precis
