import Precis.Proofs.Pruning.Semantics

/-! # Presence and presentation

Three switches say how declarations are presented: those for bodies, decorators and doc comments.
The others alone decide which declarations are there and which enums are looked at, so that outlines
pruned under selections with the same other switches differ in presentation only. -/

namespace Precis

/-! ## Outlines without their doc comments -/

namespace Node

/-- Whether a node is a doc comment that stands by itself. -/
def isDocComment : Node → Bool
  | leaf (.comment item) => item.format == .doc
  | _ => false

mutual

/-- A node without the doc comments that stand by themselves below it. -/
def sansDocs : Node → Node
  | branch head children => branch head (sansDocsAll children)
  | leaf item => leaf item

/-- A row of nodes without the doc comments that stand by themselves, at any depth. -/
def sansDocsAll : List Node → List Node
  | [] => []
  | node :: rest =>
    if node.isDocComment then sansDocsAll rest else node.sansDocs :: sansDocsAll rest

end

/-- Trees of the same shape whose nodes say the same, apart from texts, decorators and doc
comments. -/
inductive Corresponds : Node → Node → Prop where
  | leaf {item other : Leaf} (h : (Label.leaf item).bare = (Label.leaf other).bare) :
      Corresponds (.leaf item) (.leaf other)
  | branch {head other : Head} {children others : List Node}
      (h : (Label.head head).bare = (Label.head other).bare)
      (hchildren : List.Forall₂ Corresponds children others) :
      Corresponds (.branch head children) (.branch other others)

end Node

/-! ## What does not depend on the presentation -/

namespace Selection

/-- A selection with the switches for the presentation off. -/
def presence (s : Selection) : Selection :=
  { s with bodies := false, decorators := false, docs := false }

theorem admits_presence (s : Selection) (visibility : Visibility) :
    s.presence.admits visibility = s.admits visibility := by
  cases visibility <;> rfl

theorem keepsHead_presence (s : Selection) (head : Head) :
    s.presence.keepsHead head = s.keepsHead head := by
  cases head with
  | file head => rfl
  | package head => rfl
  | type head => exact admits_presence s head.visibility

/-- Doc comments that stand by themselves are the only nodes whose presence depends on the
presentation. -/
theorem keepsLeaf_presence (s : Selection) {item : Leaf}
    (h : (Node.leaf item).isDocComment = false) :
    s.presence.keepsLeaf item = s.keepsLeaf item := by
  cases item with
  | imported item => rfl
  | function item => exact congrArg (s.functions && ·) (admits_presence s item.visibility)
  | field item => exact congrArg (s.fields && ·) (admits_presence s item.visibility)
  | typeAlias item => exact admits_presence s item.visibility
  | comment item =>
      obtain ⟨text, format, location⟩ := item
      cases format with
      | line => rfl
      | block => rfl
      | doc => cases h
  | problem item => rfl

theorem isDocComment_trimLeaf (s : Selection) (item : Leaf) :
    (Node.leaf (s.trimLeaf item)).isDocComment = (Node.leaf item).isDocComment := by
  cases item <;> rfl

theorem bare_trimLabel_eq (s t : Selection) (l : Label) :
    (s.trimLabel l).bare = (t.trimLabel l).bare :=
  (trimmed_trimLabel s l).bare.trans (trimmed_trimLabel t l).bare.symm

section Agreement

variable {s t : Selection} (h : s.presence = t.presence)

include h

theorem keepsHead_of_presence (head : Head) : s.keepsHead head = t.keepsHead head := by
  rw [← keepsHead_presence, h, keepsHead_presence]

theorem keepsLeaf_of_presence {item : Leaf} (hitem : (Node.leaf item).isDocComment = false) :
    s.keepsLeaf item = t.keepsLeaf item := by
  rw [← keepsLeaf_presence s hitem, h, keepsLeaf_presence t hitem]

/-- The same enums are looked at. -/
theorem breachesAll_of_presence (nodes : List Node) :
    s.breachesAll nodes = t.breachesAll nodes := by
  induction nodes using Node.rowInduction with
  | nil => rfl
  | leaf item rest ih => exact ih
  | branch head children rest ihc ihr =>
      simp only [breachesAll, breaches, keepsHead_of_presence h, ihc, ihr]

/-- The same is left, apart from doc comments and the presentation. -/
theorem remnants_correspond (nodes : List Node) :
    List.Forall₂ Node.Corresponds (Node.sansDocsAll (s.remnants nodes))
      (Node.sansDocsAll (t.remnants nodes)) := by
  induction nodes using Node.rowInduction with
  | nil => exact .nil
  | leaf item rest ih =>
      rw [remnants, remnant, remnants, remnant]
      by_cases hdoc : (Node.leaf item).isDocComment = true
      · -- Whether it is kept or not, a doc comment is left out in the end.
        have hgone : ∀ r : Selection, Node.sansDocsAll
            ((if r.keepsLeaf item then some (Node.leaf (r.trimLeaf item)) else none).toList ++
              r.remnants rest) = Node.sansDocsAll (r.remnants rest) := by
          intro r
          cases r.keepsLeaf item <;> simp [Node.sansDocsAll, isDocComment_trimLeaf, hdoc]
        rw [hgone s, hgone t]
        exact ih
      · have hplain : (Node.leaf item).isDocComment = false := by simpa using hdoc
        rw [keepsLeaf_of_presence h hplain]
        cases t.keepsLeaf item with
        | false => exact ih
        | true =>
            simp only [if_true, Option.toList_some, List.singleton_append, Node.sansDocsAll,
              isDocComment_trimLeaf, hplain]
            exact .cons (.leaf (bare_trimLabel_eq s t (.leaf item))) ih
  | branch head children rest ihc ihr =>
      rw [remnants, remnant, remnants, remnant, keepsHead_of_presence h]
      cases t.keepsHead head with
      | false => exact ihr
      | true => exact .cons (.branch (bare_trimLabel_eq s t (.head head)) ihc) ihr

end Agreement

/-! ## Outlines -/

/-- Two selections that differ in the presentation at most refuse the same outlines. Otherwise they
leave the same, up to doc comments that stand by themselves and the presentation of what is left.
Without bodies, no function has a body and no field a value, at any depth. -/
theorem prune_presentation {s t : Selection} (h : s.presence = t.presence) (f : Outline) :
    ((∃ b, s.prune f = .error b ∧ t.prune f = .error b) ∨
      ∃ g r, s.prune f = .ok g ∧ t.prune f = .ok r ∧ g.head = r.head ∧
        List.Forall₂ Node.Corresponds (Node.sansDocsAll g.children)
          (Node.sansDocsAll r.children)) ∧
    (s.bodies = false → ∀ g, s.prune f = .ok g → ∀ node ∈ g.walk, node.label.text? = none) := by
  refine ⟨?_, ?_⟩
  · have hbreaches := breachesAll_of_presence h f.children
    cases hfound : s.breachesAll f.children with
    | nil =>
        refine .inr ⟨_, _, prune_eq_ok_iff.mpr ⟨hfound, rfl⟩,
          prune_eq_ok_iff.mpr ⟨hbreaches ▸ hfound, rfl⟩, rfl, ?_⟩
        exact remnants_correspond h f.children
    | cons b bs =>
        refine .inl ⟨b, ?_, ?_⟩
        · rw [prune, pruneNodes_eq_outcome, hfound]
          rfl
        · rw [prune, pruneNodes_eq_outcome, ← hbreaches, hfound]
          rfl
  · intro hbodies g hg
    obtain ⟨-, rfl⟩ := prune_eq_ok_iff.mp hg
    have htexts : Node.Everywhere (fun l => l.text? = none) (s.remnants f.children) := by
      refine everywhere_remnants (P := fun _ => True) (fun _ _ => trivial) ?_
      intro l _ _
      rw [(trimmed_trimLabel s l).text, hbodies]
      rfl
    rw [Outline.walk, Node.walk_eq_preorderAll]
    exact htexts

/-- Once without bodies, and once without doc comments and decorators. -/
theorem prune_presentation_specimen :
    { full with bodies := false }.presence =
      { full with docs := false, decorators := false }.presence ∧
    ∃ g r, { full with bodies := false }.prune .specimen = .ok g ∧
      { full with docs := false, decorators := false }.prune .specimen = .ok r ∧ g.head = r.head ∧
      List.Forall₂ Node.Corresponds (Node.sansDocsAll g.children) (Node.sansDocsAll r.children) ∧
      ∀ node ∈ g.walk, node.label.text? = none := by
  have hpresence : { full with bodies := false }.presence =
      { full with docs := false, decorators := false }.presence := rfl
  obtain ⟨houtcome, htexts⟩ := prune_presentation hpresence .specimen
  obtain ⟨g, hg⟩ : ∃ g, { full with bodies := false }.prune .specimen = .ok g := ⟨_, rfl⟩
  refine ⟨hpresence, ?_⟩
  rcases houtcome with ⟨b, hb, -⟩ | ⟨g', r, hg', hr, hhead, hchildren⟩
  · rw [hg] at hb
    cases hb
  · exact ⟨g', r, hg', hr, hhead, hchildren, htexts rfl g' hg'⟩

end Selection

end Precis
