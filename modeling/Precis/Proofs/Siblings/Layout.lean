import Precis.Proofs.Outlining.Arrangement
import Precis.Proofs.Pruning.Labels
import Precis.Proofs.Siblings.Positions
import Mathlib.Data.List.Forall2

/-! # What each child of a body contributes

An arranged body is the contributions of its children in a row. An element contributes its nodes,
which carry the doc comments since the element before it and no others. Doc comments behind the last
element stand at the end. -/

namespace Precis

/-! ## Nodes with and without doc comments -/

namespace Node

/-- The node without its doc comment. -/
def withoutDoc : Node → Node
  | branch (.type head) children => branch (.type { head with doc := none }) children
  | leaf (.function item) => leaf (.function { item with doc := none })
  | leaf (.field item) => leaf (.field { item with doc := none })
  | leaf (.typeAlias item) => leaf (.typeAlias { item with doc := none })
  | other => other

variable (doc : Comment) (node : Node)

@[simp] theorem withoutDoc_withDoc : (node.withDoc doc).withoutDoc = node.withoutDoc := by
  rcases node with ⟨_ | _ | _, _⟩ | (_ | _ | _ | _ | _ | _) <;> rfl

@[simp] theorem kind_withDoc : (node.withDoc doc).kind = node.kind := by
  rcases node with ⟨_ | _ | _, _⟩ | (_ | _ | _ | _ | _ | _) <;> rfl

@[simp] theorem decorators_withDoc :
    (node.withDoc doc).label.decorators = node.label.decorators := by
  rcases node with ⟨_ | _ | _, _⟩ | (_ | _ | _ | _ | _ | _) <;> rfl

variable {doc node}

theorem doc?_withDoc (h : node.kind.isDeclaration = true) :
    (node.withDoc doc).doc? = some doc := by
  rcases node with ⟨_ | _ | _, _⟩ | (_ | _ | _ | _ | _ | _)
  case branch.type | leaf.function | leaf.field | leaf.typeAlias => rfl
  all_goals cases h

theorem withoutDoc_of_doc? (h : node.doc? = none) : node.withoutDoc = node := by
  rcases node with ⟨_ | _ | head, _⟩ | (_ | item | item | item | _ | _)
  case branch.type | leaf.function | leaf.field | leaf.typeAlias =>
    simp only [doc?, Head.doc?, Leaf.doc?] at h
    simp only [withoutDoc, ← h]
  all_goals rfl

end Node

section Rows

variable {α : Type} {p : Node → Prop}

theorem forall_mem_toList_map {x : Option α} {f : α → Node} (h : ∀ a ∈ x, p (f a)) :
    ∀ node ∈ (x.map f).toList, p node := by
  cases x with
  | none => exact List.forall_mem_nil p
  | some a => simpa using h a rfl

theorem forall_mem_ite {c : Prop} [Decidable c] {xs ys : List Node} (hxs : ∀ node ∈ xs, p node)
    (hys : ∀ node ∈ ys, p node) : ∀ node ∈ if c then xs else ys, p node := by
  split
  · exact hxs
  · exact hys

end Rows

/-- A row of nodes without its comments and without the doc comments of its declarations. -/
def undocumented (nodes : List Node) : List Node :=
  (nodes.map Node.withoutDoc).filter fun node => node.kind != .comment

@[simp] theorem undocumented_nil : undocumented [] = [] := rfl

@[simp] theorem undocumented_append (xs ys : List Node) :
    undocumented (xs ++ ys) = undocumented xs ++ undocumented ys := by
  simp [undocumented]

@[simp] theorem undocumented_comment (c : Comment) : undocumented [.leaf (.comment c)] = [] := rfl

theorem undocumented_eq_self {nodes : List Node}
    (h : ∀ node ∈ nodes, node.doc? = none ∧ node.kind ≠ .comment) : undocumented nodes = nodes := by
  have hmap : nodes.map Node.withoutDoc = nodes :=
    (List.map_congr_left fun node hnode => Node.withoutDoc_of_doc? (h node hnode).1).trans
      (List.map_id nodes)
  rw [undocumented, hmap, List.filter_eq_self]
  intro node hnode
  simpa using (h node hnode).2

/-! ## Doc comments as one -/

/-- The doc comment that doc comments in a row count as. -/
structure Joins (docs : List Comment) (doc : Comment) : Prop where
  text : doc.text = "\n".intercalate (docs.map Comment.text)
  format : doc.format = .doc
  location : ∃ first last, docs.head? = some first ∧ docs.getLast? = some last ∧
    doc.location = first.location.upTo last.location

theorem joins_of_joined? {docs : List Comment} {doc : Comment}
    (hdocs : ∀ c ∈ docs, c.format = .doc) (h : joined? docs = some doc) : Joins docs doc := by
  cases docs with
  | nil => cases h
  | cons first rest =>
      obtain rfl := Option.some.inj h
      constructor
      · exact foldl_append_text first rest
      · rw [foldl_append_format]
        exact hdocs first List.mem_cons_self
      · refine ⟨first, rest.getLastD first, rfl, ?_, foldl_append_location first rest⟩
        rw [List.getLast?_cons, List.getLastD_eq_getLast?]

theorem joined?_eq_none {docs : List Comment} : joined? docs = none ↔ docs = [] := by
  cases docs <;> simp [joined?]

/-- A node that carries a doc comment if it is a declaration, and is as before otherwise. -/
structure Carries (doc : Comment) (node carrier : Node) : Prop where
  doc : node.kind.isDeclaration = true → carrier.doc? = some doc
  same : carrier.withoutDoc = node.withoutDoc

/-- What the nodes of an element become, given the doc comments since the element before it. -/
inductive Documents (docs : List Comment) (nodes : List Node) : List Node → Prop where
  /-- Without doc comments, no node gets one. -/
  | bare (hdocs : docs = []) (hnodes : ∀ node ∈ nodes, node.doc? = none) :
      Documents docs nodes nodes
  /-- Doc comments of an element that becomes nothing are dropped. -/
  | dropped (hdocs : docs ≠ []) (hnodes : nodes = []) : Documents docs nodes []
  /-- If there is no declaration among the nodes, one comment stands in front of them. -/
  | beside {doc : Comment} (hdoc : Joins docs doc) (hnodes : nodes ≠ [])
      (hdeclaration : ∀ node ∈ nodes, node.kind.isDeclaration = false) :
      Documents docs nodes (.leaf (.comment doc) :: nodes)
  /-- Otherwise each declaration gets one doc comment. -/
  | within {doc : Comment} {carriers : List Node} (hdoc : Joins docs doc)
      (hdeclaration : ∃ node ∈ nodes, node.kind.isDeclaration = true)
      (hcarriers : List.Forall₂ (Carries doc) nodes carriers) : Documents docs nodes carriers

theorem carries_withDoc (doc : Comment) (node : Node) : Carries doc node (node.withDoc doc) where
  doc := Node.doc?_withDoc
  same := Node.withoutDoc_withDoc doc node

theorem documents_document {docs : List Comment} {nodes : List Node}
    (hdocs : ∀ c ∈ docs, c.format = .doc) (hnodes : ∀ node ∈ nodes, node.doc? = none) :
    Documents docs nodes (document (joined? docs) nodes) := by
  cases hjoined : joined? docs with
  | none => exact .bare (joined?_eq_none.mp hjoined) hnodes
  | some doc =>
      have hdoc := joins_of_joined? hdocs hjoined
      rw [document]
      split_ifs with hempty hdeclaration
      · refine .dropped ?_ (List.isEmpty_iff.mp hempty)
        rintro rfl
        cases hjoined
      · refine .within hdoc (by simpa using hdeclaration) ?_
        rw [List.forall₂_map_right_iff]
        exact List.forall₂_same.mpr fun node _ => carries_withDoc doc node
      · refine .beside hdoc (by simpa using hempty) ?_
        simpa using hdeclaration

theorem undocumented_of_documents {docs : List Comment} {nodes out : List Node}
    (h : Documents docs nodes out) : undocumented out = undocumented nodes := by
  cases h with
  | bare => rfl
  | dropped _ hnodes => rw [hnodes]
  | beside => rfl
  | within _ _ hcarriers =>
      have hsame : List.Forall₂ Eq (out.map Node.withoutDoc) (nodes.map Node.withoutDoc) := by
        rw [List.forall₂_map_left_iff, List.forall₂_map_right_iff]
        exact hcarriers.flip.imp fun _ _ hcarries => hcarries.same
      rw [List.forall₂_eq_eq_eq] at hsame
      rw [undocumented, hsame, undocumented]

/-- What stands at the end of a body, given the doc comments after its last element. -/
inductive Ends (docs : List Comment) : List Node → Prop where
  | nothing (hdocs : docs = []) : Ends docs []
  | standalone {doc : Comment} (hdoc : Joins docs doc) : Ends docs [.leaf (.comment doc)]

theorem ends_standalone {docs : List Comment} (hdocs : ∀ c ∈ docs, c.format = .doc) :
    Ends docs (standalone (joined? docs)) := by
  cases hjoined : joined? docs with
  | none => exact .nothing (joined?_eq_none.mp hjoined)
  | some doc => exact .standalone (joins_of_joined? hdocs hjoined)

/-! ## Contributions -/

namespace Dialect

variable (d : Dialect)

/-- A node as an element becomes it: it is no comment and has no doc comment yet, and if it is of one
of the decorated kinds, the attributes are its decorators. -/
structure Fresh (attributes : List String) (node : Node) : Prop where
  doc : node.doc? = none
  comment : node.kind ≠ .comment
  decorators : node.kind ∈ d.decorated → node.label.decorators = attributes

/-- What a child contributes to its body, given the children before it. -/
inductive Contributes (share : List ParseTree → ParseTree → List Node) (before : List ParseTree)
    (t : ParseTree) : List Node → Prop where
  /-- An attribute waits for the next element. -/
  | waiting (hattribute : d.isAttribute t = true) : Contributes share before t []
  /-- So does a doc comment. -/
  | doc (hcomment : d.isComment t = true) (hdoc : d.documents (d.comment t) = true) :
      Contributes share before t []
  /-- Any other comment stands where it is. -/
  | aside (hcomment : d.isComment t = true) (hdoc : d.documents (d.comment t) = false) :
      Contributes share before t [.leaf (.comment (d.comment t))]
  /-- An element takes what waits for it. -/
  | element {out : List Node} (helement : d.isElement t = true)
      (hdocs : Documents (d.docsBefore before) (share before t) out)
      (hdecorators : ∀ node ∈ out, node.kind ∈ d.decorated →
        node.label.decorators = d.attributesBefore before) :
      Contributes share before t out

/-- The nodes of a body are the contributions of its children, one after the other, and at the end
the doc comments after the last element. -/
def LaidOut (share : List ParseTree → ParseTree → List Node) (seen parts : List ParseTree)
    (nodes : List Node) : Prop :=
  ∃ (outs : List (List Node)) (ending : List Node),
    List.Forall₂ (fun child out => d.Contributes share child.1 child.2 out) (alongside seen parts)
      outs ∧
    Ends (d.docsBefore (seen ++ parts)) ending ∧ nodes = outs.flatten ++ ending

variable {d} {share : List ParseTree → ParseTree → List Node}

theorem format_of_mem_docsBefore {before : List ParseTree} :
    ∀ c ∈ d.docsBefore before, c.format = .doc :=
  fun c hc => d.format_of_documents c (List.mem_filter.mp hc).2

theorem LaidOut.cons {seen rest : List ParseTree} {t : ParseTree} {out nodes : List Node}
    (hout : d.Contributes share seen t out) (h : d.LaidOut share (seen ++ [t]) rest nodes) :
    d.LaidOut share seen (t :: rest) (out ++ nodes) := by
  obtain ⟨outs, ending, houts, hending, rfl⟩ := h
  refine ⟨out :: outs, ending, .cons hout houts, ?_, by simp⟩
  rwa [List.append_assoc] at hending

theorem decorators_document {waiting : Option Comment} {attributes : List String}
    {nodes : List Node} (hnodes : ∀ node ∈ nodes, d.Fresh attributes node) :
    ∀ node ∈ document waiting nodes, node.kind ∈ d.decorated →
      node.label.decorators = attributes := by
  intro node hnode hkind
  unfold document at hnode
  split at hnode
  · exact (hnodes node hnode).decorators hkind
  split_ifs at hnode
  · cases hnode
  · obtain ⟨original, horiginal, rfl⟩ := List.mem_map.mp hnode
    rw [Node.kind_withDoc] at hkind
    rw [Node.decorators_withDoc]
    exact (hnodes original horiginal).decorators hkind
  · rcases List.mem_cons.mp hnode with rfl | hnode
    · exact absurd hkind d.comment_not_decorated
    · exact (hnodes node hnode).decorators hkind

/-! ## One child after the other -/

/-- What a child contributes to its body, if it becomes the given nodes as an element. -/
def contribution (d : Dialect) (seen : List ParseTree) (nodes : List Node) (t : ParseTree) :
    List Node :=
  if d.isAttribute t then []
  else if d.isComment t then
    if d.documents (d.comment t) then [] else [.leaf (.comment (d.comment t))]
  else document (joined? (d.docsBefore seen)) nodes

theorem pieces_cons (share : List ParseTree → ParseTree → List Node) (seen : List ParseTree)
    (t : ParseTree) (rest : List ParseTree) :
    d.pieces share seen (t :: rest) =
      (d.piece? (share seen t) t).toList ++ d.pieces share (seen ++ [t]) rest := by
  rw [pieces, alongside, List.filterMap_cons]
  cases d.piece? (share seen t) t <;> rfl

/-- If the children before an element do not matter, neither do the places of the children. -/
theorem pieces_eq_filterMap (nodes : ParseTree → List Node) (seen parts : List ParseTree) :
    d.pieces (fun _ t => nodes t) seen parts = parts.filterMap fun t => d.piece? (nodes t) t := by
  conv => rhs; rw [← map_snd_alongside seen parts, List.filterMap_map]
  rfl

/-- What a child contributes comes first, and what waits behind it is what the children since the
last element leave. -/
theorem arrangeFrom_piece? (seen : List ParseTree) (nodes : List Node) (t : ParseTree)
    (later : List Piece) :
    arrangeFrom (joined? (d.docsBefore seen)) ((d.piece? nodes t).toList ++ later) =
      d.contribution seen nodes t ++
        arrangeFrom (joined? (d.docsBefore (seen ++ [t]))) later := by
  rw [piece?, contribution]
  by_cases hattribute : d.isAttribute t = true
  · rw [if_pos hattribute, if_pos hattribute, docsBefore_concat_of_attribute hattribute]
    rfl
  rw [if_neg hattribute, if_neg hattribute]
  by_cases hcomment : d.isComment t = true
  · rw [if_pos hcomment, if_pos hcomment, docsBefore_concat_of_comment hcomment]
    by_cases hdoc : d.documents (d.comment t) = true
    · rw [if_pos hdoc, if_pos hdoc, List.filter_cons_of_pos hdoc, List.filter_nil,
        ← some_enqueue_joined?]
      rfl
    · rw [if_neg hdoc, if_neg hdoc, List.filter_cons_of_neg hdoc, List.filter_nil,
        List.append_nil]
      rfl
  · have helement : d.isElement t = true :=
      isElement_iff.mpr ⟨by simpa using hattribute, by simpa using hcomment⟩
    rw [if_neg hcomment, if_neg hcomment, docsBefore_concat_of_element helement]
    rfl

section Fresh

-- Elements become fresh nodes, whatever stands before them.
variable (hshare : ∀ before t, ∀ node ∈ share before t, d.Fresh (d.attributesBefore before) node)

include hshare

theorem contributes_contribution (seen : List ParseTree) (t : ParseTree) :
    d.Contributes share seen t (d.contribution seen (share seen t) t) := by
  rw [contribution]
  split_ifs with hattribute hcomment hdoc
  · exact .waiting hattribute
  · exact .doc hcomment hdoc
  · exact .aside hcomment (by simpa using hdoc)
  · refine .element (isElement_iff.mpr ⟨by simpa using hattribute, by simpa using hcomment⟩) ?_
      (decorators_document (hshare seen t))
    exact documents_document format_of_mem_docsBefore fun node hnode =>
      (hshare seen t node hnode).doc

theorem laidOut_arrangeFrom (seen parts : List ParseTree) :
    d.LaidOut share seen parts
      (arrangeFrom (joined? (d.docsBefore seen)) (d.pieces share seen parts)) := by
  induction parts generalizing seen with
  | nil =>
      refine ⟨[], _, .nil, ?_, rfl⟩
      rw [List.append_nil]
      exact ends_standalone format_of_mem_docsBefore
  | cons t rest ih =>
      rw [pieces_cons, arrangeFrom_piece?]
      exact (ih (seen ++ [t])).cons (contributes_contribution hshare seen t)

/-- A body is laid out child by child. -/
theorem laidOut_arrange (parts : List ParseTree) :
    d.LaidOut share [] parts (arrange (d.pieces share [] parts)) :=
  laidOut_arrangeFrom hshare [] parts

/-! ## Bodies without their doc comments -/

theorem undocumented_of_contributes {before : List ParseTree} {t : ParseTree} {out : List Node}
    (h : d.Contributes share before t out) :
    undocumented out = if d.isElement t then share before t else [] := by
  cases h with
  | waiting hattribute => simp [isElement, hattribute]
  | doc hcomment => simp [isElement, hcomment]
  | aside hcomment => simp [isElement, hcomment]
  | element helement hdocs =>
      rw [if_pos helement, undocumented_of_documents hdocs]
      apply undocumented_eq_self
      intro node hnode
      have hfresh := hshare before t node hnode
      exact ⟨hfresh.doc, hfresh.comment⟩

/-- Without doc comments, a body is the nodes of its elements in a row. -/
theorem undocumented_of_laidOut {seen parts : List ParseTree} {nodes : List Node}
    (h : d.LaidOut share seen parts nodes) :
    undocumented nodes = (alongside seen parts).flatMap fun child =>
      if d.isElement child.2 then share child.1 child.2 else [] := by
  obtain ⟨outs, ending, houts, hending, rfl⟩ := h
  have hnone : undocumented ending = [] := by
    cases hending <;> rfl
  rw [undocumented_append, hnone, List.append_nil]
  clear hending
  generalize alongside seen parts = children at houts
  induction houts with
  | nil => rfl
  | cons hout _ ih =>
      rw [List.flatten_cons, undocumented_append, ih, undocumented_of_contributes hshare hout,
        List.flatMap_cons]

end Fresh

end Dialect

end Precis
