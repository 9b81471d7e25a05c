import Precis.Prune

/-! Labels under a selection. A label has a text, decorators and a doc comment, each of which may
be empty, and a bare rest. Trimming treats the first three one by one and leaves the rest. -/

namespace Precis

/-! ## The parts of a label -/

namespace Label

/-- The body of a function or the value of a field. -/
def text? : Label → Option String
  | .leaf (.function item) => item.body
  | .leaf (.field item) => item.value
  | _ => none

/-- The decorators of a type, function or field. -/
def decorators : Label → List String
  | .head (.type declared) => declared.decorators
  | .leaf (.function item) => item.decorators
  | .leaf (.field item) => item.decorators
  | _ => []

/-- The doc comment of a declaration. -/
def doc? : Label → Option Comment
  | .head branch => branch.doc?
  | .leaf item => item.doc?

/-- The label with another text, other decorators and another doc comment, as far as its kind
has them. -/
def withParts (text : Option String) (decorators : List String) (doc : Option Comment) :
    Label → Label
  | .head (.type declared) =>
    .head (.type { declared with decorators := decorators, doc := doc })
  | .leaf (.function item) =>
    .leaf (.function { item with body := text, decorators := decorators, doc := doc })
  | .leaf (.field item) =>
    .leaf (.field { item with value := text, decorators := decorators, doc := doc })
  | .leaf (.typeAlias item) => .leaf (.typeAlias { item with doc := doc })
  | other => other

/-- The label without its text, its decorators and its doc comment. -/
def bare (l : Label) : Label :=
  l.withParts none [] none

theorem withParts_bare (l : Label) : l.bare.withParts l.text? l.decorators l.doc? = l := by
  rcases l with (_ | _ | _) | (_ | _ | _ | _ | _ | _) <;> rfl

/-- A label is determined by its parts. -/
theorem ext_parts {l m : Label} (hbare : l.bare = m.bare) (htext : l.text? = m.text?)
    (hdecorators : l.decorators = m.decorators) (hdoc : l.doc? = m.doc?) : l = m := by
  rw [← withParts_bare l, hbare, htext, hdecorators, hdoc, withParts_bare m]

end Label

/-! ## Keeping and trimming -/

namespace Selection

/-- Whether a node with this label is kept, whatever becomes of its children. -/
def keepsLabel (s : Selection) : Label → Bool
  | .head head => s.keepsHead head
  | .leaf item => s.keepsLeaf item

/-- What is left of the label of a kept node. -/
def trimLabel (s : Selection) : Label → Label
  | .head head => .head (s.trimHead head)
  | .leaf item => .leaf (s.trimLeaf item)

/-- How the label of a kept node and what is left of it are related. Texts and decorators go by
their switches; a doc comment goes by the switch for its format. -/
structure Trimmed (s : Selection) (l m : Label) : Prop where
  bare : m.bare = l.bare
  text : m.text? = if s.bodies then l.text? else none
  decorators : m.decorators = if s.decorators then l.decorators else []
  doc : m.doc? = l.doc?.filter fun c => if c.format = .doc then s.docs else s.comments

theorem keepsFormat_eq (s : Selection) (format : CommentFormat) :
    s.keepsFormat format = if format = .doc then s.docs else s.comments := by
  cases format <;> simp [keepsFormat]

theorem trimmed_trimLabel (s : Selection) (l : Label) : Trimmed s l (s.trimLabel l) := by
  constructor
  · rcases l with (_ | _ | _) | (_ | _ | _ | _ | _ | _) <;> rfl
  · rcases l with (_ | _ | _) | (_ | _ | _ | _ | _ | _) <;>
      simp [trimLabel, trimHead, trimLeaf, trimBody, Label.text?]
  · rcases l with (_ | _ | _) | (_ | _ | _ | _ | _ | _) <;>
      simp [trimLabel, trimHead, trimLeaf, trimDecorators, Label.decorators]
  · simp only [← keepsFormat_eq]
    rcases l with (_ | _ | _) | (_ | _ | _ | _ | _ | _) <;>
      simp [trimLabel, trimHead, trimLeaf, trimDoc, Label.doc?, Head.doc?, Leaf.doc?]

/-- The relation pins down what is left. -/
theorem Trimmed.eq_trimLabel {s : Selection} {l m : Label} (h : Trimmed s l m) :
    m = s.trimLabel l := by
  have hl := trimmed_trimLabel s l
  apply Label.ext_parts
  · rw [h.bare, hl.bare]
  · rw [h.text, hl.text]
  · rw [h.decorators, hl.decorators]
  · rw [h.doc, hl.doc]

end Selection

end Precis
