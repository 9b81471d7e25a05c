import Precis.Docs
import Precis.Proofs.Walking.Preorder

/-! # Where the nodes of a body come from

Every node of an arranged body is a node of one of the pieces, possibly with a doc comment, or a
doc comment that stands by itself. The doc comments are made up of those among the pieces. -/

namespace Precis

namespace Piece

/-- The doc comment that a piece is. -/
def doc? : Piece → Option Comment
  | doc comment => some comment
  | aside _ | element _ | group _ => none

/-- The nodes that a piece brings. -/
def nodes : Piece → List Node
  | doc _ => []
  | aside node => [node]
  | element nodes | group nodes => nodes

end Piece

/-! ## Doc comments in a row -/

/-- The one doc comment that doc comments in a row count as. -/
def joined? : List Comment → Option Comment
  | [] => none
  | first :: rest => some (rest.foldl Comment.append first)

/-- A doc comment made up of some of the doc comments of a list, in order. -/
def Merges (docs : List Comment) (c : Comment) : Prop :=
  ∃ run : List Comment, run.Sublist docs ∧ joined? run = some c

theorem some_enqueue_joined? (before : List Comment) (c : Comment) :
    some (enqueue (joined? before) c) = joined? (before ++ [c]) := by
  cases before with
  | nil => rfl
  | cons first rest => simp [joined?, enqueue, List.foldl_append]

theorem foldl_append_format (first : Comment) (rest : List Comment) :
    (rest.foldl Comment.append first).format = first.format := by
  induction rest generalizing first with
  | nil => rfl
  | cons c rest ih => exact ih (first.append c)

/-- Doc comments in a row reach from the start of the first to the end of the last. -/
theorem foldl_append_location (first : Comment) (rest : List Comment) :
    (rest.foldl Comment.append first).location =
      first.location.upTo (rest.getLastD first).location := by
  induction rest generalizing first with
  | nil => rfl
  | cons c rest ih =>
      rw [List.foldl_cons, ih]
      cases rest <;> rfl

/-- The texts of doc comments in a row stand on lines of their own. -/
theorem foldl_append_text (first : Comment) (rest : List Comment) :
    (rest.foldl Comment.append first).text =
      "\n".intercalate ((first :: rest).map Comment.text) := by
  induction rest generalizing first with
  | nil => rfl
  | cons c rest ih =>
      rw [List.foldl_cons, ih]
      rfl

/-! ## Arranged nodes -/

/-- How a node of a body comes about. -/
inductive Arranged (docs : List Comment) (pieces : List Piece) : Node → Prop where
  | plain {piece : Piece} {node : Node} (hpiece : piece ∈ pieces) (hnode : node ∈ piece.nodes) :
      Arranged docs pieces node
  | documented {piece : Piece} {node : Node} {c : Comment} (hpiece : piece ∈ pieces)
      (hnode : node ∈ piece.nodes) (hdoc : Merges docs c) :
      Arranged docs pieces (node.withDoc c)
  | standalone {c : Comment} (hdoc : Merges docs c) :
      Arranged docs pieces (.leaf (.comment c))

theorem Merges.mono {docs docs' : List Comment} {c : Comment} (h : Merges docs c)
    (hdocs : docs.Sublist docs') : Merges docs' c := by
  obtain ⟨run, hrun, hjoined⟩ := h
  exact ⟨run, hrun.trans hdocs, hjoined⟩

theorem Arranged.mono {docs docs' : List Comment} {pieces pieces' : List Piece} {node : Node}
    (h : Arranged docs pieces node) (hdocs : docs.Sublist docs') (hpieces : pieces ⊆ pieces') :
    Arranged docs' pieces' node := by
  cases h with
  | plain hpiece hnode => exact .plain (hpieces hpiece) hnode
  | documented hpiece hnode hdoc =>
      exact .documented (hpieces hpiece) hnode (hdoc.mono hdocs)
  | standalone hdoc => exact .standalone (hdoc.mono hdocs)

theorem arranged_of_mem_standalone {before : List Comment} {pieces : List Piece} {node : Node}
    (h : node ∈ standalone (joined? before)) : Arranged before pieces node := by
  simp only [standalone, Option.mem_toList, Option.map_eq_some_iff] at h
  obtain ⟨c, hc, rfl⟩ := h
  exact .standalone ⟨before, List.Sublist.refl before, hc⟩

theorem arranged_of_mem_document {before : List Comment} {pieces : List Piece} {piece : Piece}
    {node : Node} (hpiece : piece ∈ pieces)
    (h : node ∈ document (joined? before) piece.nodes) : Arranged before pieces node := by
  unfold document at h
  split at h
  · exact .plain hpiece h
  · rename_i c hc
    have hdoc : Merges before c := ⟨before, List.Sublist.refl before, hc⟩
    split at h
    · simp at h
    · split at h
      · obtain ⟨original, hmem, rfl⟩ := List.mem_map.mp h
        exact .documented hpiece hmem hdoc
      · rcases List.mem_cons.mp h with rfl | h
        · exact .standalone hdoc
        · exact .plain hpiece h

/-- What waits at the start of a body counts among its doc comments. -/
theorem arranged_of_mem_arrangeFrom {before : List Comment} {pieces : List Piece} {node : Node}
    (h : node ∈ arrangeFrom (joined? before) pieces) :
    Arranged (before ++ pieces.filterMap Piece.doc?) pieces node := by
  induction pieces generalizing before with
  | nil =>
      rw [arrangeFrom] at h
      have hwaiting : Arranged before [] node := arranged_of_mem_standalone h
      simpa using hwaiting
  | cons piece rest ih =>
      have hrest : rest ⊆ piece :: rest := List.subset_cons_self piece rest
      have hleft : before.Sublist (before ++ (piece :: rest).filterMap Piece.doc?) :=
        List.sublist_append_left before _
      cases piece with
      | doc c =>
          rw [arrangeFrom, some_enqueue_joined?] at h
          apply (ih h).mono _ hrest
          simp [Piece.doc?]
      | aside node =>
          rw [arrangeFrom] at h
          rcases List.mem_cons.mp h with rfl | h
          · exact .plain List.mem_cons_self (List.mem_singleton.mpr rfl)
          · exact (ih h).mono (List.Sublist.refl _) hrest
      | element nodes =>
          rw [arrangeFrom] at h
          rcases List.mem_append.mp h with h | h
          · exact (arranged_of_mem_document List.mem_cons_self h).mono hleft (List.Subset.refl _)
          · exact (@ih [] h).mono (List.sublist_append_right _ _) hrest
      | group nodes =>
          rw [arrangeFrom] at h
          rcases List.mem_append.mp h with h | h
          · rcases List.mem_append.mp h with h | h
            · exact (arranged_of_mem_standalone h).mono hleft (List.Subset.refl _)
            · exact .plain List.mem_cons_self h
          · exact (@ih [] h).mono (List.sublist_append_right _ _) hrest

theorem arranged_of_mem_arrange {pieces : List Piece} {node : Node} (h : node ∈ arrange pieces) :
    Arranged (pieces.filterMap Piece.doc?) pieces node :=
  @arranged_of_mem_arrangeFrom [] pieces node h

end Precis
