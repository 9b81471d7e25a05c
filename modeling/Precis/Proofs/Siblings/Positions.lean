import Precis.Docs
import Precis.ParseTree
import Mathlib.Data.List.DropRight

/-! # Bodies, child by child

A body is read from left to right, and doc comments and attributes are carried along until an
element takes them. What is carried is determined by the children since the last element, so that
it can be said of each child from those before it, without running through the body. -/

namespace Precis

/-! ## Entries of a list with those before them -/

section Alongside

variable {α β : Type}

/-- Each entry of a list with those before it, which follow `seen`. -/
def alongside (seen : List α) : List α → List (List α × α)
  | [] => []
  | x :: rest => (seen, x) :: alongside (seen ++ [x]) rest

theorem map_snd_alongside (seen xs : List α) : (alongside seen xs).map Prod.snd = xs := by
  induction xs generalizing seen with
  | nil => rfl
  | cons x xs ih => rw [alongside, List.map_cons, ih]

/-- An entry of a mapped list stands where its original stands, and sees those before it. -/
theorem map_alongside_eq_append_cons {f : List α × α → β} {seen xs : List α} {front : List β}
    {y : β} {back : List β} (h : (alongside seen xs).map f = front ++ y :: back) :
    ∃ before x after, xs = before ++ x :: after ∧ front = (alongside seen before).map f ∧
      y = f (seen ++ before, x) ∧ back = (alongside (seen ++ before ++ [x]) after).map f := by
  induction front generalizing seen xs with
  | nil =>
      cases xs with
      | nil => cases h
      | cons x xs =>
          obtain ⟨rfl, rfl⟩ := List.cons.inj h
          exact ⟨[], x, xs, rfl, rfl, by rw [List.append_nil], by rw [List.append_nil]⟩
  | cons z front ih =>
      cases xs with
      | nil => cases h
      | cons w xs =>
          obtain ⟨rfl, hrest⟩ := List.cons.inj h
          obtain ⟨before, x, after, rfl, rfl, rfl, rfl⟩ := ih hrest
          exact ⟨w :: before, x, after, rfl, rfl, by simp, by simp⟩

theorem mem_alongside {seen before xs : List α} {x : α} (h : (before, x) ∈ alongside seen xs) :
    ∃ between after, before = seen ++ between ∧ xs = between ++ x :: after := by
  induction xs generalizing seen with
  | nil => cases h
  | cons y xs ih =>
      rcases List.mem_cons.mp h with hhere | hrest
      · obtain ⟨rfl, rfl⟩ := Prod.mk.inj hhere
        exact ⟨[], xs, by rw [List.append_nil], rfl⟩
      · obtain ⟨between, after, rfl, rfl⟩ := ih hrest
        exact ⟨y :: between, after, by simp, rfl⟩

theorem mem_alongside_append (seen before : List α) (x : α) (after : List α) :
    (seen ++ before, x) ∈ alongside seen (before ++ x :: after) := by
  induction before generalizing seen with
  | nil => simp [alongside]
  | cons y before ih =>
      have hrest := ih (seen ++ [y])
      rw [List.append_assoc, List.singleton_append] at hrest
      exact List.mem_cons_of_mem _ hrest

end Alongside

/-! ## Comments, attributes and elements -/

/-- How the children of a body are told apart. Attributes are the decorators of the next element,
if it becomes a node of one of the decorated kinds. -/
structure Dialect where
  isComment : ParseTree → Bool
  comment : ParseTree → Comment
  /-- Whether a comment documents what follows it. -/
  documents : Comment → Bool
  isAttribute : ParseTree → Bool
  decorator : ParseTree → String
  decorated : List NodeKind
  format_of_documents : ∀ c, documents c = true → c.format = .doc
  isComment_of_isAttribute : ∀ t, isAttribute t = true → isComment t = false
  comment_not_decorated : NodeKind.comment ∉ decorated

namespace Dialect

variable (d : Dialect)

/-- A child that is neither a comment nor an attribute. -/
def isElement (t : ParseTree) : Bool :=
  !d.isAttribute t && !d.isComment t

/-- The children since the last element. -/
def sinceElement (before : List ParseTree) : List ParseTree :=
  before.rtakeWhile fun t => !d.isElement t

/-- The doc comments since the last element. -/
def docsBefore (before : List ParseTree) : List Comment :=
  (((d.sinceElement before).filter d.isComment).map d.comment).filter d.documents

/-- The attributes since the last element. -/
def attributesBefore (before : List ParseTree) : List String :=
  ((d.sinceElement before).filter d.isAttribute).map d.decorator

/-- What a child contributes to its body, if it becomes the given nodes as an element. -/
def piece? (nodes : List Node) (t : ParseTree) : Option Piece :=
  if d.isAttribute t then none
  else if d.isComment t then
    if d.documents (d.comment t) then some (.doc (d.comment t))
    else some (.aside (.leaf (.comment (d.comment t))))
  else some (.element nodes)

/-- The pieces of a body, where `share` gives the nodes of an element from the children before
it. -/
def pieces (share : List ParseTree → ParseTree → List Node) (seen parts : List ParseTree) :
    List Piece :=
  (alongside seen parts).filterMap fun child => d.piece? (share child.1 child.2) child.2

/-! ## What is carried along -/

variable {d} {t : ParseTree} {before : List ParseTree}

theorem sinceElement_concat_of_element (h : d.isElement t = true) :
    d.sinceElement (before ++ [t]) = [] :=
  List.rtakeWhile_concat_neg _ _ _ (by simp [h])

theorem sinceElement_concat (h : d.isElement t = false) :
    d.sinceElement (before ++ [t]) = d.sinceElement before ++ [t] :=
  List.rtakeWhile_concat_pos _ _ _ (by simp [h])

theorem docsBefore_concat_of_element (h : d.isElement t = true) :
    d.docsBefore (before ++ [t]) = [] := by
  rw [docsBefore, sinceElement_concat_of_element h]
  rfl

theorem attributesBefore_concat_of_element (h : d.isElement t = true) :
    d.attributesBefore (before ++ [t]) = [] := by
  rw [attributesBefore, sinceElement_concat_of_element h]
  rfl

theorem docsBefore_concat_of_attribute (h : d.isAttribute t = true) :
    d.docsBefore (before ++ [t]) = d.docsBefore before := by
  have helement : d.isElement t = false := by rw [isElement, h]; rfl
  rw [docsBefore, sinceElement_concat helement, List.filter_append,
    List.filter_cons_of_neg (by simp [d.isComment_of_isAttribute t h]), List.filter_nil,
    List.append_nil, docsBefore]

theorem attributesBefore_concat_of_attribute (h : d.isAttribute t = true) :
    d.attributesBefore (before ++ [t]) = d.attributesBefore before ++ [d.decorator t] := by
  have helement : d.isElement t = false := by rw [isElement, h]; rfl
  rw [attributesBefore, sinceElement_concat helement, List.filter_append,
    List.filter_cons_of_pos h, List.filter_nil, List.map_append, List.map_singleton,
    attributesBefore]

theorem docsBefore_concat_of_comment (h : d.isComment t = true) :
    d.docsBefore (before ++ [t]) = d.docsBefore before ++ [d.comment t].filter d.documents := by
  have helement : d.isElement t = false := by rw [isElement, h]; simp
  rw [docsBefore, sinceElement_concat helement, List.filter_append, List.filter_cons_of_pos h,
    List.filter_nil, List.map_append, List.map_singleton, List.filter_append, docsBefore]

theorem attributesBefore_concat_of_comment (hattribute : d.isAttribute t = false)
    (h : d.isComment t = true) :
    d.attributesBefore (before ++ [t]) = d.attributesBefore before := by
  have helement : d.isElement t = false := by rw [isElement, h]; simp
  rw [attributesBefore, sinceElement_concat helement, List.filter_append,
    List.filter_cons_of_neg (by simp [hattribute]), List.filter_nil, List.append_nil,
    attributesBefore]

theorem isElement_iff : d.isElement t = true ↔ d.isAttribute t = false ∧ d.isComment t = false := by
  rw [isElement, Bool.and_eq_true, Bool.not_eq_true', Bool.not_eq_true']

end Dialect

end Precis
