import Precis.Proofs.Imports.Tidying
import Precis.Proofs.Text.Cutting
import Precis.Proofs.Types.Brackets

/-! # Use trees and what they import

A use tree is a path that ends in a name, in a star or in a group of further trees. Here it is
written down with the white space of one of its spellings. The text is tidied, cut at braces, commas
and separators, and put together again, and yet each leaf of a group comes out under the path that
leads to it. -/

namespace Precis.Rust.Use

open Text Brackets

/-! ## Trees with their spellings -/

/-- White space, which may be empty. -/
structure Gap where
  text : List Char
  blank : allBlank text = true

/-- White space that keeps two words apart. -/
structure Space extends Gap where
  nonempty : text ≠ []

/-- One of the signs of a use tree. -/
def isSign (c : Char) : Bool :=
  c == ':' || c == ',' || c == '\x7b' || c == '\x7d'

/-- A part of a path: a text without white space and signs. -/
structure Segment where
  text : List Char
  nonempty : text ≠ []
  chars : ∀ c ∈ text, isBlank c = false ∧ isSign c = false

/-- The star that stands for all names. -/
def Segment.star : Segment where
  text := ['*']
  nonempty := List.cons_ne_nil _ _
  chars := List.forall_mem_singleton.mpr ⟨by decide, by decide⟩

/-- A segment of a path with the separator behind it and the white space around that. -/
structure Step where
  segment : Segment
  before : Gap
  after : Gap

/-- Another name for what is imported, and the white space around `as`. -/
structure Rename where
  before : Space
  after : Space
  localName : Segment

mutual

/-- A use tree, with the white space inside one of its spellings. -/
inductive Tree where
  | name (path : List Step) (last : Segment) (rename : Option Rename)
  | glob (path : List Step)
  | group (path : List Step) (body : Body)

/-- What stands between the braces of a group. A body that is blank behind a comma makes that comma
a trailing one. -/
inductive Body where
  | blank (gap : Gap)
  | last (before : Gap) (tree : Tree) (after : Gap)
  | more (before : Gap) (tree : Tree) (after : Gap) (rest : Body)

end

def Step.text (s : Step) : List Char :=
  s.segment.text ++ (s.before.text ++ (separator ++ s.after.text))

def Rename.text (r : Rename) : List Char :=
  r.before.text ++ (['a', 's'] ++ (r.after.text ++ r.localName.text))

mutual

/-- The spelling. -/
def Tree.text : Tree → List Char
  | .name path last rename =>
    path.flatMap Step.text ++ (last.text ++ (rename.map Rename.text).getD [])
  | .glob path => path.flatMap Step.text ++ ['*']
  | .group path body => path.flatMap Step.text ++ ('\x7b' :: (body.text ++ ['\x7d']))

def Body.text : Body → List Char
  | .blank gap => gap.text
  | .last before tree after => before.text ++ (tree.text ++ after.text)
  | .more before tree after rest =>
    before.text ++ (tree.text ++ (after.text ++ ',' :: rest.text))

end

/-! ## What a tree imports -/

/-- The segments of a path with separators between them. -/
def joined (segments : List Segment) : String :=
  String.ofList (separator.intercalate (segments.map Segment.text))

/-- A leaf of a use tree: the path that leads to it, and the name it gets. -/
structure Leaf where
  path : List Segment
  localName : Option Segment

def Leaf.below (above : List Segment) (l : Leaf) : Leaf :=
  { l with path := above ++ l.path }

def Leaf.symbol (l : Leaf) : ImportedName where
  name := joined l.path
  localName := l.localName.map fun segment => String.ofList segment.text

mutual

/-- The leaves in order, each with the path from the root of the tree. -/
def Tree.leaves : Tree → List Leaf
  | .name path last rename => [⟨path.map Step.segment ++ [last], rename.map Rename.localName⟩]
  | .glob path => [⟨path.map Step.segment ++ [.star], none⟩]
  | .group path body => body.leaves.map (Leaf.below (path.map Step.segment))

def Body.leaves : Body → List Leaf
  | .blank _ => []
  | .last _ tree _ => tree.leaves
  | .more _ tree _ rest => tree.leaves ++ rest.leaves

end

/-- The module that a use tree names, and the names it imports from there. -/
def Tree.imports : Tree → String × List ImportedName
  | .group path body => (joined (path.map Step.segment), body.leaves.map Leaf.symbol)
  | .glob [] => ("*", [])
  | .glob path => (joined (path.map Step.segment), [.wildcard])
  | .name [] last none => (joined [last], [])
  | .name [] last (some rename) =>
    (joined [last], [Leaf.symbol ⟨[last], some rename.localName⟩])
  | .name path last rename =>
    (joined (path.map Step.segment), [Leaf.symbol ⟨[last], rename.map Rename.localName⟩])

/-! ## Tidied spellings -/

/-- The segments of a path, each with a separator behind it. -/
def pathText (segments : List Segment) : List Char :=
  segments.flatMap fun segment => segment.text ++ separator

def Rename.tidied (r : Rename) : List Char :=
  aliasWord ++ r.localName.text

mutual

/-- What is left of the spelling when it is tidied. -/
def Tree.tidied : Tree → List Char
  | .name path last rename =>
    pathText (path.map Step.segment) ++ (last.text ++ (rename.map Rename.tidied).getD [])
  | .glob path => pathText (path.map Step.segment) ++ ['*']
  | .group path body =>
    pathText (path.map Step.segment) ++ ('\x7b' :: (body.tidied ++ ['\x7d']))

def Body.tidied : Body → List Char
  | .blank gap => squash gap.text
  | .last before tree after => squash before.text ++ (tree.tidied ++ squash after.text)
  | .more before tree after rest =>
    squash before.text ++ (tree.tidied ++ (squash after.text ++ ',' :: rest.tidied))

end

theorem Segment.inWord (s : Segment) : ∀ c ∈ s.text, InWord c := by
  intro c hc
  obtain ⟨hblank, hsign⟩ := s.chars c hc
  refine ⟨hblank, ?_⟩
  rintro rfl
  exact absurd hsign (by decide)

theorem Segment.tidies (s : Segment) : Tidies s.text s.text :=
  tidies_word s.nonempty s.inWord

theorem tidies_path (path : List Step) {ys ys' : List Char} (h : Tidies ys ys') :
    Tidies (path.flatMap Step.text ++ ys) (pathText (path.map Step.segment) ++ ys') := by
  induction path with
  | nil => exact h
  | cons s path ih =>
      have hstep := Tidies.separated s.segment.nonempty s.segment.inWord s.before.blank
        s.after.blank ih
      simpa [Step.text, pathText] using hstep

theorem Space.squash_eq (s : Space) : squash s.text = [' '] := by
  obtain ⟨⟨text, -⟩, hne⟩ := s
  exact if_neg (by simpa using hne)

theorem Segment.tidies_rename (last : Segment) (r : Rename) :
    Tidies (last.text ++ r.text) (last.text ++ r.tidied) := by
  have has : Tidies ['a', 's'] ['a', 's'] :=
    .cons ⟨by decide, by decide⟩ (tidies_singleton ⟨by decide, by decide⟩)
  have hall := last.tidies.append r.before.blank (has.append r.after.blank r.localName.tidies)
  rw [r.before.squash_eq, r.after.squash_eq] at hall
  exact hall

mutual

theorem Tree.tidies : ∀ tree : Tree, Tidies tree.text tree.tidied
  | .name path last none => by
      have hlast := tidies_path path last.tidies
      simpa [Tree.text, Tree.tidied] using hlast
  | .name path last (some r) => tidies_path path (last.tidies_rename r)
  | .glob path => tidies_path path Segment.star.tidies
  | .group path body =>
      tidies_path path (body.tidies ⟨by decide, by decide⟩)

/-- A body is tidied between the sign before it and the brace behind it. -/
theorem Body.tidies : ∀ (body : Body) {sign : Char}, InWord sign →
    Tidies (sign :: (body.text ++ ['\x7d'])) (sign :: (body.tidied ++ ['\x7d']))
  | .blank gap, sign, hsign => by
      have hbrace : InWord '\x7d' := ⟨by decide, by decide⟩
      exact (tidies_singleton hsign).append gap.blank (tidies_singleton hbrace)
  | .last before tree after, sign, hsign => by
      have hbrace : InWord '\x7d' := ⟨by decide, by decide⟩
      have hall := (tidies_singleton hsign).append before.blank
        (tree.tidies.append after.blank (tidies_singleton hbrace))
      simpa [Body.text, Body.tidied] using hall
  | .more before tree after rest, sign, hsign => by
      have hcomma : InWord ',' := ⟨by decide, by decide⟩
      have hall := (tidies_singleton hsign).append before.blank
        (tree.tidies.append after.blank (rest.tidies hcomma))
      simpa [Body.text, Body.tidied] using hall

end

end Precis.Rust.Use
