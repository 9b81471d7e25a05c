import Precis.Node
import Precis.Text.Blank
import Precis.Text.Brackets
import Precis.Text.Cut
import Precis.Text.Lines

/-!
# Use trees

The argument of a `use` declaration is a path whose end may be a group of further use trees. It is
flattened into a module and the names imported from it; a name deep inside groups carries the path
that leads to it from the outermost group.
-/

namespace Precis.Rust

open Text

/-- Removes the space behind a path separator. -/
def tightenAfter : List Char → List Char
  | ':' :: ':' :: ' ' :: cs => ':' :: ':' :: tightenAfter cs
  | c :: cs => c :: tightenAfter cs
  | [] => []

/-- Removes the space in front of a path separator. -/
def tightenBefore : List Char → List Char
  | ' ' :: ':' :: ':' :: cs => ':' :: ':' :: tightenBefore cs
  | c :: cs => c :: tightenBefore cs
  | [] => []

/-- One spelling for all that differ in white space alone: single spaces between words, and none
around path separators. -/
def tidy (cs : List Char) : List Char :=
  tightenBefore (tightenAfter (joinWith [' '] (words cs)))

/-- The separator of paths. -/
def separator : List Char := [':', ':']

/-- The path before a group at the end of a use tree, with the separator in between, and the text
inside the group. -/
def group? (cs : List Char) : Option (List Char × List Char) :=
  let path := cs.takeWhile (· != '\x7b')
  match cs.dropWhile (· != '\x7b') with
  | [] => none
  | _ :: inside =>
    if (path.isEmpty || endsWith separator path) && endsWith ['\x7d'] cs then
      some (path, inside.dropLast)
    else none

/-- The word that gives a name another name, with the spaces around it. -/
def aliasWord : List Char := [' ', 'a', 's', ' ']

/-- The name that a use tree without a group imports, below the path `path`. -/
def useName (path cs : List Char) : ImportedName :=
  match splitFirst? aliasWord cs with
  | some (name, other) =>
    { name := String.ofList (path ++ trim name), localName := some (String.ofList (trim other)) }
  | none => { name := String.ofList (path ++ trim cs) }

/-- The entries of a group. -/
def entries (inside : List Char) : List (List Char) :=
  (Brackets.ofGroups.split ',' inside).filter fun entry => !entry.isEmpty

theorem length_lt_of_group? {cs path inside : List Char} (h : group? cs = some (path, inside)) :
    inside.length < cs.length := by
  have hdrop := List.takeWhile_append_dropWhile (p := (· != '\x7b')) (l := cs)
  unfold group? at h
  dsimp only at h
  split at h
  · simp at h
  · rename_i opener rest hrest
    split at h
    · simp only [Option.some.injEq, Prod.mk.injEq] at h
      obtain ⟨-, rfl⟩ := h
      rw [← hdrop, hrest]
      simp only [List.length_append, List.length_cons, List.length_dropLast]
      omega
    · simp at h

theorem length_le_of_mem_entries {inside entry : List Char} (h : entry ∈ entries inside) :
    entry.length ≤ inside.length :=
  Brackets.length_le_of_mem_split (List.mem_filter.1 h).1

set_option linter.unusedVariables false in
/-- The names that a group below the path `path` imports, in order. -/
def groupNames (path inside : List Char) : List ImportedName :=
  (entries inside).attach.flatMap fun ⟨entry, hentry⟩ =>
    match hgroup : group? entry with
    | some (deeper, inner) => groupNames (path ++ deeper) inner
    | none => [useName path entry]
termination_by inside.length
decreasing_by
  exact Nat.lt_of_lt_of_le (length_lt_of_group? hgroup) (length_le_of_mem_entries hentry)

/-- How the names of a group depend on its entries. -/
theorem groupNames_eq (path inside : List Char) :
    groupNames path inside = (entries inside).flatMap fun entry =>
      match group? entry with
      | some (deeper, inner) => groupNames (path ++ deeper) inner
      | none => [useName path entry] := by
  rw [groupNames]
  conv => rhs; rw [← List.attach_map_subtype_val (entries inside), List.flatMap_map]
  congr 1
  funext ⟨entry, hentry⟩
  dsimp only
  split
  · rename_i h
    rw [h]
  · rename_i h
    rw [h]

/-- The module of a use tree and the names imported from it. -/
def useTree (cs : List Char) : String × List ImportedName :=
  let text := tidy cs
  match group? text with
  | some (path, inside) =>
    (String.ofList (dropSuffixes separator path), groupNames [] inside)
  | none =>
    match splitLast? separator text with
    | some (module, last) =>
      (String.ofList module, [if last = ['*'] then .wildcard else useName [] last])
    | none =>
      match splitFirst? aliasWord text with
      | some (name, _) => (String.ofList (trim name), [useName [] text])
      | none => (String.ofList text, [])

end Precis.Rust
