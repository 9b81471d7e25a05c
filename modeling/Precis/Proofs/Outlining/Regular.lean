import Precis.Proofs.Outlining.Arrangement
import Precis.Proofs.Outlining.Spans
import Mathlib.Data.List.Basic

/-! # Regular labels

What a grammar makes of a parse tree has regular labels: no file and no problem among them, only
doc comments as documentation, enum members as they are promised to be, and locations that are as
good as those of the parse tree. -/

namespace Precis

/-- Documentation is written as a doc comment. -/
def IsDocumentation (doc : Option Comment) : Prop :=
  ∀ c ∈ doc, c.format = .doc

/-- What a grammar may say about a node, if the locations it finds are `ok`. -/
def Label.Regular (ok : Location → Prop) : Label → Prop
  | .head (.file _) => False
  | .head (.package package) => ok package.location
  | .head (.type declared) => ok declared.location ∧ IsDocumentation declared.doc
  | .leaf (.imported item) => ok item.location
  | .leaf (.function item) => ok item.location ∧ IsDocumentation item.doc
  | .leaf (.field item) =>
    ok item.location ∧ IsDocumentation item.doc ∧ (item.enumMember → item.isPublicConstant)
  | .leaf (.typeAlias item) => ok item.location ∧ IsDocumentation item.doc
  | .leaf (.comment item) => ok item.location
  | .leaf (.problem _) => False

@[simp] theorem isDocumentation_none : IsDocumentation none := by
  simp [IsDocumentation]

@[simp] theorem isPublicConstant_ofEnum (name enumName : String) (location : Location) :
    (Field.ofEnum name enumName location).isPublicConstant = true := rfl

namespace Node

/-- The nodes of a row of trees have regular labels. -/
def Regular (ok : Location → Prop) (nodes : List Node) : Prop :=
  Everywhere (Label.Regular ok) nodes

section

variable {ok : Location → Prop}

@[simp] theorem regular_nil : Regular ok [] := everywhere_nil

@[simp] theorem regular_append {xs ys : List Node} :
    Regular ok (xs ++ ys) ↔ Regular ok xs ∧ Regular ok ys := everywhere_append

theorem regular_leaf {item : Leaf} : Regular ok [leaf item] ↔ Label.Regular ok (.leaf item) := by
  simp [Regular]

theorem regular_branch {head : Head} {children : List Node} :
    Regular ok [branch head children] ↔
      Label.Regular ok (.head head) ∧ Regular ok children := by
  simp [Regular]

theorem regular_iff_forall {nodes : List Node} :
    Regular ok nodes ↔ ∀ node ∈ nodes, Regular ok [node] := everywhere_iff_forall

theorem regular_flatMap {α : Type} {xs : List α} {f : α → List Node}
    (h : ∀ x ∈ xs, Regular ok (f x)) : Regular ok (xs.flatMap f) := everywhere_flatMap h

theorem regular_ite {c : Prop} [Decidable c] {xs ys : List Node} (hxs : Regular ok xs)
    (hys : Regular ok ys) : Regular ok (if c then xs else ys) := everywhere_ite hxs hys

theorem regular_toList {found : Option Node}
    (h : ∀ node, found = some node → Regular ok [node]) : Regular ok found.toList :=
  everywhere_toList h

theorem regular_toList_map {α : Type} {found : Option α} {f : α → Node}
    (h : ∀ a, Regular ok [f a]) : Regular ok (found.map f).toList := by
  apply regular_toList
  intro node hnode
  obtain ⟨a, -, rfl⟩ := Option.map_eq_some_iff.mp hnode
  exact h a

theorem regular_filterMap {α : Type} {xs : List α} {f : α → Option Node}
    (h : ∀ x ∈ xs, Regular ok (f x).toList) : Regular ok (xs.filterMap f) := by
  rw [List.filterMap_eq_flatMap_toList]
  exact regular_flatMap h

theorem regular_withDoc {node : Node} {c : Comment} (h : Regular ok [node])
    (hc : c.format = .doc) : Regular ok [node.withDoc c] := by
  have hdoc : IsDocumentation (some c) := by
    rintro d ⟨⟩
    exact hc
  cases node with
  | leaf item =>
      rw [withDoc, regular_leaf]
      rw [regular_leaf] at h
      cases item <;> simp_all [Leaf.withDoc, Label.Regular, Field.isPublicConstant]
  | branch head children =>
      rw [withDoc, regular_branch]
      rw [regular_branch] at h
      refine ⟨?_, h.2⟩
      cases head <;> simp_all [Head.withDoc, Label.Regular]

end

end Node

/-! ## Arranged bodies -/

/-- A piece that the child `t` of a body contributes. -/
structure Piece.Regular (ok : Location → Prop) (source : List Char) (t : ParseTree)
    (piece : Piece) : Prop where
  doc : ∀ c, piece.doc? = some c → c.format = .doc ∧ c.location = t.location source
  nodes : Node.Regular ok piece.nodes

theorem Piece.Regular.element {ok : Location → Prop} {source : List Char} {t : ParseTree}
    {nodes : List Node} (h : Node.Regular ok nodes) :
    (Piece.element nodes).Regular ok source t where
  doc := by simp [Piece.doc?]
  nodes := h

theorem Piece.Regular.group {ok : Location → Prop} {source : List Char} {t : ParseTree}
    {nodes : List Node} (h : Node.Regular ok nodes) :
    (Piece.group nodes).Regular ok source t where
  doc := by simp [Piece.doc?]
  nodes := h

/-- Doc comments that stand in order merge into one whose location is good. -/
theorem Merges.regular {ok : Location → Prop} {docs : List Comment} {c : Comment}
    (h : Merges docs c) (hdocs : ∀ d ∈ docs, d.format = .doc ∧ ok d.location)
    (horder : docs.Pairwise fun d e => ok (d.location.upTo e.location)) :
    c.format = .doc ∧ ok c.location := by
  obtain ⟨run, hrun, hjoined⟩ := h
  cases run with
  | nil => simp [joined?] at hjoined
  | cons first rest =>
      obtain rfl : rest.foldl Comment.append first = c := by simpa [joined?] using hjoined
      obtain ⟨hformat, hfirst⟩ := hdocs first (hrun.subset List.mem_cons_self)
      refine ⟨(foldl_append_format first rest).trans hformat, ?_⟩
      rw [foldl_append_location]
      cases rest with
      | nil => exact hfirst
      | cons c rest =>
          refine List.rel_of_pairwise_cons (horder.sublist hrun) ?_
          rw [List.getLastD_cons]
          exact List.getLastD_mem_cons

/-- A body is regular if each of its pieces is, and the pieces come from siblings in order. -/
theorem regular_arrange {ok : Location → Prop} {source : List Char} {t : ParseTree} {α : Type}
    {xs : List α} {f : α → Piece} (tree : α → ParseTree) (ht : t.Placed ok source)
    (hxs : (xs.map tree).Sublist t.children)
    (hf : ∀ x ∈ xs, (f x).Regular ok source (tree x)) :
    Node.Regular ok (arrange (xs.map f)) := by
  let docs := (xs.map f).filterMap Piece.doc?
  have hdocs : ∀ d ∈ docs, d.format = .doc ∧ ok d.location := by
    intro d hd
    obtain ⟨piece, hpiece, hdoc⟩ := List.mem_filterMap.mp hd
    obtain ⟨x, hx, rfl⟩ := List.mem_map.mp hpiece
    obtain ⟨hformat, hlocation⟩ := (hf x hx).doc d hdoc
    have hchild : tree x ∈ t.children := hxs.subset (List.mem_map_of_mem hx)
    exact ⟨hformat, hlocation ▸ (ht.child hchild).here.1⟩
  have horder : docs.Pairwise fun d e => ok (d.location.upTo e.location) := by
    have hsiblings := List.pairwise_map.mp (ht.here.2.sublist hxs)
    apply List.pairwise_filterMap.mpr
    apply List.pairwise_map.mpr
    apply hsiblings.imp_of_mem
    intro x y hx hy hxy d hd e he
    rw [((hf x hx).doc d hd).2, ((hf y hy).doc e he).2]
    exact hxy
  apply Node.regular_iff_forall.mpr
  intro node hnode
  cases arranged_of_mem_arrange hnode with
  | plain hpiece hmem =>
      obtain ⟨x, hx, rfl⟩ := List.mem_map.mp hpiece
      exact Node.regular_iff_forall.mp (hf x hx).nodes _ hmem
  | documented hpiece hmem hdoc =>
      obtain ⟨x, hx, rfl⟩ := List.mem_map.mp hpiece
      exact Node.regular_withDoc (Node.regular_iff_forall.mp (hf x hx).nodes _ hmem)
        (hdoc.regular hdocs horder).1
  | standalone hdoc => exact Node.regular_leaf.mpr (hdoc.regular hdocs horder).2

theorem regular_arrange_siblings {ok : Location → Prop} {source : List Char} {t : ParseTree}
    {siblings : List ParseTree} {f : ParseTree → Piece} (ht : t.Placed ok source)
    (hsiblings : siblings.Sublist t.children)
    (hf : ∀ c ∈ siblings, (f c).Regular ok source c) :
    Node.Regular ok (arrange (siblings.map f)) :=
  regular_arrange id ht (by simpa using hsiblings) hf

end Precis
