import Precis.Location
import Precis.Text.Utf8

/-!
# Parse trees

The concrete tree that a grammar assigns to a source text. A node has a kind and, if its parent
gives it one, a role; it covers a range of bytes of the text. Tokens that only stand for themselves
are not named. A node is missing if the grammar asked for it and the text does not have it, and
faulty if the text it covers fits nothing in the grammar.
-/

namespace Precis

/-- A node of a parse tree; the role is empty if the parent gives it none. -/
structure ParseTree where
  kind : String
  role : String
  named : Bool
  missing : Bool
  faulty : Bool
  start : Nat
  stop : Nat
  children : List ParseTree

namespace ParseTree

mutual

/-- The number of nodes of a tree. -/
def size : ParseTree → Nat
  | ⟨_, _, _, _, _, _, _, children⟩ => sizeAll children + 1

/-- The number of nodes of a row of trees. -/
def sizeAll : List ParseTree → Nat
  | [] => 0
  | t :: ts => t.size + sizeAll ts

end

theorem size_le_sizeAll {t : ParseTree} {ts : List ParseTree} (h : t ∈ ts) :
    t.size ≤ sizeAll ts := by
  induction ts with
  | nil => simp at h
  | cons u us ih =>
    rcases List.mem_cons.1 h with rfl | hmem
    · simp only [sizeAll]
      omega
    · have := ih hmem
      simp only [sizeAll]
      omega

theorem size_lt_of_mem {t c : ParseTree} (h : c ∈ t.children) : c.size < t.size := by
  have := size_le_sizeAll h
  cases t
  simp only [size] at *
  omega

/-! ## Finding nodes -/

/-- The named children. -/
def parts (t : ParseTree) : List ParseTree :=
  t.children.filter (·.named)

/-- The first child with a role. -/
def child? (t : ParseTree) (role : String) : Option ParseTree :=
  t.children.find? fun c => c.role == role

/-- All children with a role. -/
def childrenOf (t : ParseTree) (role : String) : List ParseTree :=
  t.children.filter fun c => c.role == role

/-- The first child of a kind. -/
def firstOfKind? (t : ParseTree) (kind : String) : Option ParseTree :=
  t.children.find? fun c => c.kind == kind

theorem mem_of_mem_parts {t c : ParseTree} (h : c ∈ t.parts) : c ∈ t.children :=
  (List.mem_filter.1 h).1

theorem mem_of_child? {t c : ParseTree} {role : String} (h : t.child? role = some c) :
    c ∈ t.children :=
  List.mem_of_find?_eq_some h

theorem size_lt_of_mem_parts {t c : ParseTree} (h : c ∈ t.parts) : c.size < t.size :=
  size_lt_of_mem (mem_of_mem_parts h)

theorem size_lt_of_child? {t c : ParseTree} {role : String} (h : t.child? role = some c) :
    c.size < t.size :=
  size_lt_of_mem (mem_of_child? h)

/-! ## Faults -/

mutual

/-- Whether some node of a tree is missing or faulty. -/
def hasFault : ParseTree → Bool
  | ⟨_, _, _, missing, faulty, _, _, children⟩ => missing || faulty || anyFault children

/-- Whether some node of a row of trees is missing or faulty. -/
def anyFault : List ParseTree → Bool
  | [] => false
  | t :: ts => t.hasFault || anyFault ts

end

/-! ## Text and place -/

/-- The text that a node covers; empty if its range is no range of characters of the source. -/
def text (t : ParseTree) (source : List Char) : List Char :=
  (Text.slice? t.start t.stop source).getD []

/-- The text of the first child with a role. -/
def textOf? (t : ParseTree) (role : String) (source : List Char) : Option (List Char) :=
  (t.child? role).map fun c => c.text source

/-- Where a node stands in the source. -/
def location (t : ParseTree) (source : List Char) : Location :=
  let start := Text.lineColumn t.start source
  let stop := Text.lineColumn t.stop source
  { startLine := start.1 + 1, startColumn := start.2, endLine := stop.1 + 1, endColumn := stop.2,
    startByte := t.start, endByte := t.stop }

end ParseTree

end Precis
