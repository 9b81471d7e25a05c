import Precis.Proofs.Pruning.Semantics

/-! # Pruning in steps

Pruning under one selection and then under another is pruning under their meet. Neither the keep
test nor trimming looks at anything that trimming changes, so that the two prunings do not get in
each other's way. -/

namespace Precis.Selection

/-! ## Labels -/

theorem keepsFormat_meet (a b : Selection) (format : CommentFormat) :
    (a.meet b).keepsFormat format = (a.keepsFormat format && b.keepsFormat format) := by
  cases format <;> rfl

theorem admits_meet (a b : Selection) (visibility : Visibility) :
    (a.meet b).admits visibility = (a.admits visibility && b.admits visibility) := by
  cases visibility <;> rfl

theorem keepsLabel_meet (a b : Selection) (l : Label) :
    (a.meet b).keepsLabel l = (a.keepsLabel l && b.keepsLabel l) := by
  rcases l with (_ | _ | _) | (_ | _ | _ | _ | _ | _) <;>
    simp only [keepsLabel, keepsHead, keepsLeaf, keepsFormat_meet, admits_meet, Bool.and_self]
  · rfl
  -- Functions and fields go by two switches each.
  · simp only [meet]
    ac_rfl
  · simp only [meet]
    ac_rfl

theorem keepsLabel_trimLabel (a b : Selection) (l : Label) :
    b.keepsLabel (a.trimLabel l) = b.keepsLabel l := by
  rcases l with (_ | _ | _) | (_ | _ | _ | _ | _ | _) <;> rfl

/-- Trimming twice is trimming under the meet. -/
theorem Trimmed.trans {a b : Selection} {l m n : Label} (h : Trimmed a l m)
    (h' : Trimmed b m n) : Trimmed (a.meet b) l n where
  bare := by rw [h'.bare, h.bare]
  text := by
    rw [h'.text, h.text]
    cases ha : a.bodies <;> cases hb : b.bodies <;> simp [meet, ha, hb]
  decorators := by
    rw [h'.decorators, h.decorators]
    cases ha : a.decorators <;> cases hb : b.decorators <;> simp [meet, ha, hb]
  doc := by
    rw [h'.doc, h.doc, Option.filter_filter]
    congr 1
    funext c
    split <;> simp [meet]

theorem trimLabel_trimLabel (a b : Selection) (l : Label) :
    b.trimLabel (a.trimLabel l) = (a.meet b).trimLabel l :=
  ((trimmed_trimLabel a l).trans (trimmed_trimLabel b (a.trimLabel l))).eq_trimLabel

/-! ## Remnants -/

theorem remnants_remnants (a b : Selection) (nodes : List Node) :
    b.remnants (a.remnants nodes) = (a.meet b).remnants nodes := by
  induction nodes using Node.rowInduction with
  | nil => rfl
  | leaf item rest ih =>
      have hmeet : (a.meet b).keepsLeaf item = (a.keepsLeaf item && b.keepsLeaf item) :=
        keepsLabel_meet a b (.leaf item)
      have hkeep : b.keepsLeaf (a.trimLeaf item) = b.keepsLeaf item :=
        keepsLabel_trimLabel a b (.leaf item)
      have htrim : b.trimLeaf (a.trimLeaf item) = (a.meet b).trimLeaf item :=
        Label.leaf.inj (trimLabel_trimLabel a b (.leaf item))
      cases ha : a.keepsLeaf item <;> cases hb : b.keepsLeaf item <;>
        simp [remnants, remnant, hmeet, hkeep, htrim, ha, hb, ih]
  | branch head children rest ihc ihr =>
      have hmeet : (a.meet b).keepsHead head = (a.keepsHead head && b.keepsHead head) :=
        keepsLabel_meet a b (.head head)
      have hkeep : b.keepsHead (a.trimHead head) = b.keepsHead head :=
        keepsLabel_trimLabel a b (.head head)
      have htrim : b.trimHead (a.trimHead head) = (a.meet b).trimHead head :=
        Label.head.inj (trimLabel_trimLabel a b (.head head))
      cases ha : a.keepsHead head <;> cases hb : b.keepsHead head <;>
        simp [remnants, remnant, hmeet, hkeep, htrim, ha, hb, ihc, ihr]

theorem admits_full (visibility : Visibility) : full.admits visibility = true := by
  cases visibility <;> rfl

theorem keepsFormat_full (format : CommentFormat) : full.keepsFormat format = true := by
  cases format <;> rfl

theorem keepsLabel_full (l : Label) : full.keepsLabel l = true := by
  rcases l with (_ | _ | _) | (_ | _ | _ | _ | _ | _) <;>
    simp [keepsLabel, keepsHead, keepsLeaf, admits_full, keepsFormat_full] <;> rfl

theorem trimmed_full (l : Label) : Trimmed full l l where
  bare := rfl
  text := rfl
  decorators := rfl
  doc := by
    simp only [← keepsFormat_eq, keepsFormat_full]
    cases l.doc? <;> rfl

/-- The full selection leaves every row as it is. -/
theorem remnants_full (nodes : List Node) : full.remnants nodes = nodes := by
  induction nodes using Node.rowInduction with
  | nil => rfl
  | leaf item rest ih =>
      have hkeep : full.keepsLeaf item = true := keepsLabel_full (.leaf item)
      have htrim : item = full.trimLeaf item :=
        Label.leaf.inj (trimmed_full (.leaf item)).eq_trimLabel
      simp [remnants, remnant, hkeep, ← htrim, ih]
  | branch head children rest ihc ihr =>
      have hkeep : full.keepsHead head = true := keepsLabel_full (.head head)
      have htrim : head = full.trimHead head :=
        Label.head.inj (trimmed_full (.head head)).eq_trimLabel
      simp [remnants, remnant, hkeep, ← htrim, ihc, ihr]

/-! ## Breaches -/

theorem mem_remnants {s : Selection} {node : Node} {nodes : List Node}
    (h : node ∈ s.remnants nodes) : ∃ original ∈ nodes, s.remnant original = some node := by
  induction nodes with
  | nil => simp [remnants] at h
  | cons first rest ih =>
      rw [remnants, List.mem_append, Option.mem_toList] at h
      rcases h with h | h
      · exact ⟨first, List.mem_cons_self, h⟩
      · obtain ⟨original, hmem, horiginal⟩ := ih h
        exact ⟨original, List.mem_cons_of_mem _ hmem, horiginal⟩

/-- Trimming neither makes nor mends a bad member. -/
theorem isBadMember_of_remnant {s : Selection} {original node : Node}
    (h : s.remnant original = some node) : node.isBadMember = original.isBadMember := by
  cases original with
  | leaf item =>
      simp only [remnant, Option.ite_none_right_eq_some, Option.some.injEq] at h
      obtain ⟨-, rfl⟩ := h
      cases item <;> rfl
  | branch head children =>
      simp only [remnant, Option.ite_none_right_eq_some, Option.some.injEq] at h
      obtain ⟨-, rfl⟩ := h
      rfl

theorem breach?_eq_none_iff {head : Head} {children : List Node} :
    breach? head children = none ↔
      (head.kind = .type .enumType → ∀ node ∈ children, node.isBadMember = false) := by
  cases head <;> simp [breach?, Head.kind]

theorem kind_trimHead (s : Selection) (head : Head) : (s.trimHead head).kind = head.kind := by
  cases head <;> rfl

/-- A branch without a breach has none after pruning either. -/
theorem breach?_remnants {s : Selection} {head : Head} {children : List Node}
    (h : breach? head children = none) :
    breach? (s.trimHead head) (s.remnants children) = none := by
  rw [breach?_eq_none_iff] at h ⊢
  intro hkind node hnode
  obtain ⟨original, hmem, horiginal⟩ := mem_remnants hnode
  rw [isBadMember_of_remnant horiginal]
  exact h (kind_trimHead s head ▸ hkind) original hmem

/-- Nothing that is left after pruning has a breach. -/
theorem breachesAll_remnants {a : Selection} (b : Selection) {nodes : List Node}
    (h : a.breachesAll nodes = []) : b.breachesAll (a.remnants nodes) = [] := by
  induction nodes using Node.rowInduction with
  | nil => rfl
  | leaf item rest ih =>
      have hrest := ih h
      cases hkeep : a.keepsLeaf item <;>
        simp [remnants, remnant, hkeep, breachesAll, breaches, hrest]
  | branch head children rest ihc ihr =>
      rw [breachesAll, breaches, List.append_eq_nil_iff] at h
      have hrest := ihr h.2
      cases hkeep : a.keepsHead head with
      | false => simpa [remnants, remnant, hkeep] using hrest
      | true =>
          obtain ⟨hown, hbelow⟩ : breach? head children = none ∧ a.breachesAll children = [] := by
            simpa [hkeep] using h.1
          simp [remnants, remnant, hkeep, breachesAll, breaches, hrest, ihc hbelow,
            breach?_remnants hown]

/-- A smaller selection looks at fewer enums. -/
theorem breachesAll_meet {a : Selection} (b : Selection) {nodes : List Node}
    (h : a.breachesAll nodes = []) : (a.meet b).breachesAll nodes = [] := by
  induction nodes using Node.rowInduction with
  | nil => rfl
  | leaf item rest ih => exact ih h
  | branch head children rest ihc ihr =>
      have hmeet : (a.meet b).keepsHead head = (a.keepsHead head && b.keepsHead head) :=
        keepsLabel_meet a b (.head head)
      rw [breachesAll, breaches, List.append_eq_nil_iff] at h
      have hrest := ihr h.2
      cases hkeep : a.keepsHead head with
      | false => simp [breachesAll, breaches, hmeet, hkeep, hrest]
      | true =>
          obtain ⟨hown, hbelow⟩ : breach? head children = none ∧ a.breachesAll children = [] := by
            simpa [hkeep] using h.1
          simp [breachesAll, breaches, hrest, ihc hbelow, hown]

/-! ## Outlines -/

/-- What one selection has pruned can be pruned under any other, with the result that their meet
gives at once. -/
theorem prune_then {a : Selection} (b : Selection) {f g : Outline} (h : a.prune f = .ok g) :
    ∃ r, b.prune g = .ok r ∧ (a.meet b).prune f = .ok r := by
  obtain ⟨hbreaches, rfl⟩ := prune_eq_ok_iff.mp h
  refine ⟨{ f with children := (a.meet b).remnants f.children }, ?_, ?_⟩
  · rw [prune_eq_ok_iff, remnants_remnants]
    exact ⟨breachesAll_remnants b hbreaches, rfl⟩
  · rw [prune_eq_ok_iff]
    exact ⟨breachesAll_meet b hbreaches, rfl⟩

/-- Selections act on outlines as a semilattice: two prunings in a row are one under the meet, and
the full selection changes nothing. -/
theorem prune_meet (f : Outline) :
    (∀ (a b : Selection) (g : Outline), a.prune f = .ok g →
      ∃ r, b.prune g = .ok r ∧ (a.meet b).prune f = .ok r) ∧
    ∀ g : Outline, full.prune f = .ok g → g = f := by
  refine ⟨?_, ?_⟩
  · intro a b g h
    exact prune_then b h
  · intro g h
    obtain ⟨-, rfl⟩ := prune_eq_ok_iff.mp h
    rw [remnants_full]

/-- Signatures first and then no doc comments: the specimen ends up as it does at once. -/
theorem prune_meet_specimen :
    ∃ g r h, signatures.prune .specimen = .ok g ∧ { full with docs := false }.prune g = .ok r ∧
      (signatures.meet { full with docs := false }).prune .specimen = .ok r ∧
      full.prune .specimen = .ok h ∧ h = .specimen := by
  obtain ⟨g, hg⟩ : ∃ g, signatures.prune .specimen = .ok g := ⟨_, rfl⟩
  obtain ⟨h, hh⟩ : ∃ h, full.prune .specimen = .ok h := ⟨_, rfl⟩
  obtain ⟨r, hr, hmeet⟩ := (prune_meet .specimen).1 signatures { full with docs := false } g hg
  exact ⟨g, r, h, hg, hr, hmeet, hh, (prune_meet .specimen).2 h hh⟩

end Precis.Selection
