import Precis.Proofs.Pruning.Meet

/-! # Pruning more

A selection that keeps less leaves less: its result embeds, level by level, into the result of any
selection that includes it. -/

namespace Precis

/-! ## Embeddings of trees -/

/-- A label that says the same as another one, except that it may lack the text, the decorators
or the doc comment. -/
structure Label.Lessens (l m : Label) : Prop where
  bare : l.bare = m.bare
  text : l.text? = m.text? ∨ l.text? = none
  decorators : l.decorators = m.decorators ∨ l.decorators = []
  doc : l.doc? = m.doc? ∨ l.doc? = none

/-- A tree that is found in another one: its root lessens the other root, and its children are
found, in order, among the children of the other root. -/
inductive Node.Embeds : Node → Node → Prop where
  | leaf {small large : Leaf} (h : (Label.leaf small).Lessens (.leaf large)) :
      Embeds (.leaf small) (.leaf large)
  | branch {small large : Head} {fewer more : List Node}
      (h : (Label.head small).Lessens (.head large))
      (children : List.SublistForall₂ Embeds fewer more) :
      Embeds (.branch small fewer) (.branch large more)

namespace Selection

theorem lessens_trimLabel (s : Selection) (l : Label) : (s.trimLabel l).Lessens l := by
  have h := trimmed_trimLabel s l
  refine ⟨h.bare, ?_, ?_, ?_⟩
  · rw [h.text]
    cases s.bodies <;> simp
  · rw [h.decorators]
    cases s.decorators <;> simp
  · rw [h.doc]
    cases l.doc? with
    | none => simp
    | some c =>
        rw [Option.filter_some]
        split <;> simp

/-- What is left of a row embeds into it. -/
theorem remnants_embed (s : Selection) (nodes : List Node) :
    List.SublistForall₂ Node.Embeds (s.remnants nodes) nodes := by
  induction nodes using Node.rowInduction with
  | nil => exact .nil
  | leaf item rest ih =>
      rw [remnants, remnant]
      cases s.keepsLeaf item with
      | false => exact .cons_right ih
      | true => exact .cons (.leaf (lessens_trimLabel s (.leaf item))) ih
  | branch head children rest ihc ihr =>
      rw [remnants, remnant]
      cases s.keepsHead head with
      | false => exact .cons_right ihr
      | true => exact .cons (.branch (lessens_trimLabel s (.head head)) ihc) ihr

/-! ## Monotonicity -/

/-- The meet with a selection that is included is that selection. -/
theorem meet_eq_of_includes {s t : Selection} (h : t.includes s = true) : t.meet s = s := by
  have hand : ∀ x y : Bool, (x || !y) = true → (x && y) = y := by decide
  simp only [includes, switches, List.zip_cons_cons, List.zip_nil_right, List.all_cons,
    List.all_nil, Bool.and_true, Bool.and_eq_true] at h
  obtain ⟨h1, h2, h3, h4, h5, h6, h7, h8, h9, h10⟩ := h
  simp only [meet, hand _ _ h1, hand _ _ h2, hand _ _ h3, hand _ _ h4, hand _ _ h5, hand _ _ h6,
    hand _ _ h7, hand _ _ h8, hand _ _ h9, hand _ _ h10]

/-- A selection prunes whatever a selection that includes it prunes, and its result embeds into
the other one. -/
theorem prune_monotone {s t : Selection} {f g : Outline} (hle : t.includes s = true)
    (h : t.prune f = .ok g) :
    ∃ r, s.prune f = .ok r ∧ r.head = g.head ∧
      List.SublistForall₂ Node.Embeds r.children g.children := by
  -- Pruning what the larger selection has left gives the same as pruning the outline itself.
  obtain ⟨r, hr, hmeet⟩ := prune_then s h
  rw [meet_eq_of_includes hle] at hmeet
  obtain ⟨-, rfl⟩ := prune_eq_ok_iff.mp hr
  exact ⟨_, hmeet, rfl, remnants_embed s g.children⟩

theorem prune_monotone_specimen :
    full.includes signatures = true ∧
      ∃ g r, full.prune .specimen = .ok g ∧ signatures.prune .specimen = .ok r ∧
        r.head = g.head ∧ List.SublistForall₂ Node.Embeds r.children g.children := by
  obtain ⟨g, hg⟩ : ∃ g, full.prune .specimen = .ok g := ⟨_, rfl⟩
  obtain ⟨r, hr⟩ := prune_monotone (by decide : full.includes signatures = true) hg
  exact ⟨by decide, g, r, hg, hr⟩

end Selection

end Precis
