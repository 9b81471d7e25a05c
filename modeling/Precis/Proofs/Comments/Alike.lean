import Precis.Proofs.Comments.Deletion
import Precis.Proofs.Condensing.Contents

/-! # Rows that differ in comments alone

Two rows of nodes are alike if the same is left of them once comments are left out. An arranged body
is alike to the nodes of its pieces in a row: where its doc comments go makes no difference. -/

namespace Precis

/-- Keeps everything but comments. -/
def Selection.silent : Selection :=
  { full with comments := false, docs := false }

namespace Selection

theorem keepsFormat_silent (format : CommentFormat) : silent.keepsFormat format = false := by
  cases format <;> rfl

theorem trimDoc_silent (doc : Option Comment) : silent.trimDoc doc = none := by
  rw [trimDoc, Option.filter_eq_none_iff]
  intro c _
  simp [keepsFormat_silent]

theorem admits_silent (visibility : Visibility) : silent.admits visibility = true := by
  cases visibility <;> rfl

theorem keepsHead_silent (head : Head) : silent.keepsHead head = true := by
  cases head with
  | file _ | package _ => rfl
  | type head => exact admits_silent head.visibility

/-- Leaving out comments first makes no difference to a selection without comments. -/
theorem meet_silent {s : Selection} (hcomments : s.comments = false) (hdocs : s.docs = false) :
    silent.meet s = s := by
  cases s
  simp_all [meet, silent, full]

theorem remnants_flatMap {α : Type} (s : Selection) (f : α → List Node) (xs : List α) :
    s.remnants (xs.flatMap f) = xs.flatMap fun x => s.remnants (f x) := by
  induction xs with
  | nil => rfl
  | cons x xs ih => rw [List.flatMap_cons, remnants_append, ih, List.flatMap_cons]

end Selection

namespace Node

open Selection

/-- Two rows of nodes that differ in comments alone. -/
def Alike (xs ys : List Node) : Prop :=
  silent.remnants xs = silent.remnants ys

namespace Alike

@[refl] theorem refl (xs : List Node) : Alike xs xs := rfl

theorem symm {xs ys : List Node} (h : Alike xs ys) : Alike ys xs := Eq.symm h

theorem trans {xs ys zs : List Node} (h : Alike xs ys) (h' : Alike ys zs) : Alike xs zs :=
  Eq.trans h h'

theorem append {xs xs' ys ys' : List Node} (h : Alike xs xs') (h' : Alike ys ys') :
    Alike (xs ++ ys) (xs' ++ ys') := by
  rw [Alike, remnants_append, remnants_append, h, h']

theorem flatMap {α : Type} {f g : α → List Node} {xs : List α}
    (h : ∀ x ∈ xs, Alike (f x) (g x)) : Alike (xs.flatMap f) (xs.flatMap g) := by
  rw [Alike, remnants_flatMap, remnants_flatMap]
  exact List.flatMap_congr h

theorem ite {c : Prop} [Decidable c] {xs xs' ys ys' : List Node} (h : Alike xs xs')
    (h' : Alike ys ys') : Alike (if c then xs else ys) (if c then xs' else ys') := by
  split
  · exact h
  · exact h'

end Alike

theorem alike_comment (c : Comment) : Alike [leaf (.comment c)] [] := by
  simp [Alike, remnants, remnant, keepsLeaf, keepsFormat_silent]

theorem alike_branch {head head' : Head} {xs ys : List Node}
    (hhead : silent.trimHead head = silent.trimHead head') (h : Alike xs ys) :
    Alike [branch head xs] [branch head' ys] := by
  rw [Alike] at h
  simp [Alike, remnants, remnant, keepsHead_silent, hhead, h]

theorem alike_leaf {a b : Leaf} (h : silent.trimLeaf a = silent.trimLeaf b) :
    Alike [leaf a] [leaf b] := by
  have hkeep : silent.keepsLeaf a = silent.keepsLeaf b := by
    have ha : silent.keepsLeaf (silent.trimLeaf a) = silent.keepsLeaf a :=
      keepsLabel_trimLabel silent silent (.leaf a)
    have hb : silent.keepsLeaf (silent.trimLeaf b) = silent.keepsLeaf b :=
      keepsLabel_trimLabel silent silent (.leaf b)
    rw [← ha, h, hb]
  simp [Alike, remnants, remnant, hkeep, h]

theorem alike_withDoc (node : Node) (c : Comment) : Alike [node.withDoc c] [node] := by
  cases node with
  | leaf item =>
      refine alike_leaf ?_
      cases item <;> simp [Leaf.withDoc, trimLeaf, trimDoc_silent]
  | branch head children =>
      refine alike_branch ?_ (.refl children)
      cases head <;> simp [Head.withDoc, trimHead, trimDoc_silent]

/-! ## Arranged bodies -/

theorem alike_commentPiece {c : Prop} [Decidable c] (comment : Comment) :
    Alike (if c then Piece.doc comment else .aside (.leaf (.comment comment))).nodes [] := by
  split
  · rfl
  · exact alike_comment comment

theorem alike_standalone (waiting : Option Comment) : Alike (standalone waiting) [] := by
  cases waiting with
  | none => rfl
  | some c => exact alike_comment c

theorem alike_document (waiting : Option Comment) (nodes : List Node) :
    Alike (document waiting nodes) nodes := by
  cases waiting with
  | none => rfl
  | some c =>
      rw [document]
      split_ifs with hempty hdeclaration
      · rw [List.isEmpty_iff.mp hempty]
      · have hnodes : nodes = nodes.flatMap fun node => [node] := by simp
        rw [List.map_eq_flatMap]
        conv => rhs; rw [hnodes]
        exact .flatMap fun node _ => alike_withDoc node c
      · exact (alike_comment c).append (.refl nodes)

theorem alike_arrangeFrom (waiting : Option Comment) (pieces : List Piece) :
    Alike (arrangeFrom waiting pieces) (pieces.flatMap Piece.nodes) := by
  -- Wherever the waiting comment ends up, nothing is left of it there.
  induction pieces generalizing waiting with
  | nil => exact alike_standalone waiting
  | cons piece rest ih =>
      cases piece with
      | doc c => exact ih _
      | aside node => exact (Alike.refl [node]).append (ih waiting)
      | element nodes => exact (alike_document waiting nodes).append (ih none)
      | group nodes => exact ((alike_standalone waiting).append (.refl nodes)).append (ih none)

theorem alike_arrange {α : Type} {xs : List α} {f : α → Piece} {g : α → List Node}
    (h : ∀ x ∈ xs, Alike (f x).nodes (g x)) : Alike (arrange (xs.map f)) (xs.flatMap g) := by
  refine (alike_arrangeFrom none (xs.map f)).trans ?_
  rw [List.flatMap_map]
  exact .flatMap h

/-! ## Rows without comments -/

/-- Dropping what gives nothing but comments leaves a row alike. -/
theorem alike_filter_map {α β : Type} {xs : List α} {p : α → Bool} {k : α → β}
    {f : β → List Node} {g : α → List Node} (hdrop : ∀ x ∈ xs, p x = false → Alike (g x) [])
    (hkeep : ∀ x ∈ xs, p x = true → Alike (f (k x)) (g x)) :
    Alike (((xs.filter p).map k).flatMap f) (xs.flatMap g) := by
  induction xs with
  | nil => rfl
  | cons x xs ih =>
      obtain ⟨hdropx, hdropxs⟩ := List.forall_mem_cons.mp hdrop
      obtain ⟨hkeepx, hkeepxs⟩ := List.forall_mem_cons.mp hkeep
      have hrest := ih hdropxs hkeepxs
      rw [List.flatMap_cons]
      cases hp : p x with
      | false =>
          rw [List.filter_cons_of_neg (by simp [hp])]
          exact (hdropx hp).symm.append hrest
      | true =>
          rw [List.filter_cons_of_pos hp, List.map_cons, List.flatMap_cons]
          exact (hkeepx hp).append hrest

theorem alike_unremarkedAll {ts : List ParseTree} {f g : ParseTree → List Node}
    (hremark : ∀ t ∈ ts, t.isRemark = true → Alike (g t) [])
    (h : ∀ t ∈ ts, t.isRemark = false → Alike (f t.unremarked) (g t)) :
    Alike ((ParseTree.unremarkedAll ts).flatMap f) (ts.flatMap g) := by
  rw [ParseTree.unremarkedAll_eq]
  refine alike_filter_map ?_ ?_
  · exact fun t ht hkind => hremark t ht (by simpa using hkind)
  · exact fun t ht hkind => h t ht (by simpa using hkind)

end Node

end Precis
