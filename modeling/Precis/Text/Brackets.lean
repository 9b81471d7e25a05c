import Precis.Text.Blank

/-!
# Bracketed texts

A family of brackets says which characters open and which close. All openers count alike and so do
all closers, so a text such as `(a]` counts as balanced. Separators count only outside brackets.
-/

namespace Precis.Text

/-- Which characters open a bracket and which close one. -/
structure Brackets where
  opens : Char → Bool
  closes : Char → Bool

namespace Brackets

/-- Angle, square and round brackets: those of type expressions. -/
def ofTypes : Brackets where
  opens c := c == '<' || c == '[' || c == '('
  closes c := c == '>' || c == ']' || c == ')'

/-- Square and round brackets: those around the alternatives of a union. -/
def ofUnions : Brackets where
  opens c := c == '[' || c == '('
  closes c := c == ']' || c == ')'

/-- Curly brackets: those of import groups. -/
def ofGroups : Brackets where
  opens c := c == '\x7b'
  closes c := c == '\x7d'

/-- Whether every closer has an opener before it and `depth` further openers, read before the
text, are closed by it. -/
def balancedFrom (b : Brackets) : Nat → List Char → Bool
  | depth, [] => depth == 0
  | depth, c :: cs =>
    if b.opens c then b.balancedFrom (depth + 1) cs
    else if b.closes c then
      match depth with
      | 0 => false
      | outer + 1 => b.balancedFrom outer cs
    else b.balancedFrom depth cs

/-- Whether every closer has an opener before it and every opener is closed. -/
def balanced (b : Brackets) (cs : List Char) : Bool :=
  b.balancedFrom 0 cs

/-- Whether, with `depth + 1` brackets open, the text closes all of them with its very last
character and not before. -/
def closesAtEnd (b : Brackets) : Nat → List Char → Bool
  | _, [] => false
  | depth, c :: cs =>
    if b.opens c then b.closesAtEnd (depth + 1) cs
    else if b.closes c then
      match depth with
      | 0 => cs.isEmpty
      | outer + 1 => b.closesAtEnd outer cs
    else b.closesAtEnd depth cs

/-- Puts a character in front of the first part. -/
def pushFirst (c : Char) : List (List Char) → List (List Char)
  | [] => [[c]]
  | part :: rest => (c :: part) :: rest

/-- Cuts a text at each separator that stands at depth zero, where `depth` is the number of
openers minus the number of closers read so far. -/
def splitFrom (b : Brackets) (separator : Char) : Int → List Char → List (List Char)
  | _, [] => [[]]
  | depth, c :: cs =>
    if b.opens c then pushFirst c (b.splitFrom separator (depth + 1) cs)
    else if b.closes c then pushFirst c (b.splitFrom separator (depth - 1) cs)
    else if c = separator ∧ depth = 0 then [] :: b.splitFrom separator 0 cs
    else pushFirst c (b.splitFrom separator depth cs)

/-- The trimmed parts of a text between the separators that stand outside brackets. -/
def split (b : Brackets) (separator : Char) (cs : List Char) : List (List Char) :=
  (b.splitFrom separator 0 cs).map trim

/-! ## Lengths -/

theorem length_le_of_mem_pushFirst {c : Char} {parts : List (List Char)} {n : Nat}
    (h : ∀ part ∈ parts, part.length ≤ n) : ∀ part ∈ pushFirst c parts, part.length ≤ n + 1 := by
  intro part hpart
  cases parts with
  | nil =>
    simp only [pushFirst, List.mem_singleton] at hpart
    subst hpart
    simp
  | cons first rest =>
    simp only [pushFirst, List.mem_cons] at hpart
    rcases hpart with rfl | hrest
    · simpa using h first (by simp)
    · exact Nat.le_succ_of_le (h part (by simp [hrest]))

theorem length_le_of_mem_splitFrom (b : Brackets) (separator : Char) (depth : Int)
    (cs : List Char) : ∀ part ∈ b.splitFrom separator depth cs, part.length ≤ cs.length := by
  induction cs generalizing depth with
  | nil => simp [splitFrom]
  | cons c cs ih =>
    intro part hpart
    unfold splitFrom at hpart
    split at hpart
    · exact length_le_of_mem_pushFirst (ih _) part hpart
    · split at hpart
      · exact length_le_of_mem_pushFirst (ih _) part hpart
      · split at hpart
        · rcases List.mem_cons.1 hpart with rfl | hrest
          · simp
          · exact Nat.le_succ_of_le (ih _ part hrest)
        · exact length_le_of_mem_pushFirst (ih _) part hpart

/-- No part is longer than the text it was cut from. -/
theorem length_le_of_mem_split {b : Brackets} {separator : Char} {cs part : List Char}
    (h : part ∈ b.split separator cs) : part.length ≤ cs.length := by
  obtain ⟨raw, hraw, rfl⟩ := List.mem_map.1 h
  exact Nat.le_trans (length_trim_le raw) (length_le_of_mem_splitFrom b separator 0 cs raw hraw)

end Brackets

end Precis.Text
