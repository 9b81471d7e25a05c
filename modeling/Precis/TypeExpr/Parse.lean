import Precis.Text.Alphanumeric
import Precis.Text.Brackets
import Precis.Text.Cut
import Precis.TypeExpr

/-!
# Reading type expressions

Every text denotes a type. A type may be spelled `Name<A, B>` or `Name[A, B]`, with a trailing `?`
for one that may be null and a trailing `[]` for an array; a text with none of these forms is a
name as it stands. Each form is recognised by a function of its own on trimmed texts, and each of
them yields shorter texts, so reading ends.
-/

namespace Precis.TypeExpr

open Text

/-- A name that can be given arguments: letters, digits, and the signs `_`, `.`, `:` and `$`. -/
def isPath (cs : List Char) : Bool :=
  !cs.isEmpty && cs.all fun c => isAlphanumeric c || c == '_' || c == '.' || c == ':' || c == '$'

/-- The type before a trailing `?`. -/
def nullableBody? (cs : List Char) : Option (List Char) :=
  (dropSuffix? ['?'] cs).filter fun body => !allBlank body

/-- The element type before a trailing `[]`. -/
def arrayBody? (cs : List Char) : Option (List Char) :=
  (dropSuffix? ['[', ']'] cs).filter fun body => !allBlank body && Brackets.ofTypes.balanced body

/-- Whether a character opens an argument list. -/
def opensArgs (c : Char) : Bool :=
  c == '<' || c == '['

/-- The name and the arguments of a text that is a name followed by one bracketed list up to its
end. Empty arguments do not count. -/
def application? (cs : List Char) : Option (List Char × List (List Char)) :=
  let name := trim (cs.takeWhile fun c => !opensArgs c)
  match cs.dropWhile fun c => !opensArgs c with
  | [] => none
  | _ :: rest =>
    if isPath name && Brackets.ofTypes.closesAtEnd 0 rest then
      some (name, (Brackets.ofTypes.split ',' rest.dropLast).filter fun arg => !arg.isEmpty)
    else none

theorem length_lt_of_nullableBody? {cs body : List Char} (h : nullableBody? cs = some body) :
    body.length < cs.length := by
  obtain ⟨hdrop, -⟩ := Option.filter_eq_some_iff.1 h
  rw [dropSuffix?_eq_some_iff.1 hdrop]
  simp

theorem length_lt_of_arrayBody? {cs body : List Char} (h : arrayBody? cs = some body) :
    body.length < cs.length := by
  obtain ⟨hdrop, -⟩ := Option.filter_eq_some_iff.1 h
  rw [dropSuffix?_eq_some_iff.1 hdrop]
  simp

theorem length_lt_of_application? {cs name : List Char} {args : List (List Char)}
    (h : application? cs = some (name, args)) : ∀ arg ∈ args, arg.length < cs.length := by
  intro arg harg
  have hdrop := List.takeWhile_append_dropWhile (p := fun c => !opensArgs c) (l := cs)
  unfold application? at h
  dsimp only at h
  split at h
  · simp at h
  · rename_i opener rest hrest
    split at h
    · simp only [Option.some.injEq, Prod.mk.injEq] at h
      obtain ⟨-, rfl⟩ := h
      have hsplit := Brackets.length_le_of_mem_split (List.mem_filter.1 harg).1
      rw [← hdrop, hrest]
      simp only [List.length_append, List.length_cons, List.length_dropLast] at hsplit ⊢
      omega
    · simp at h

set_option linter.unusedVariables false in
/-- The type that a text denotes. -/
def parse (cs : List Char) : TypeExpr :=
  let text := trim cs
  match hnullable : nullableBody? text with
  | some body => (parse body).orNull
  | none =>
    match harray : arrayBody? text with
    | some body => array (parse body)
    | none =>
      match happly : application? text with
      | some (name, args) =>
        ⟨String.ofList name, args.attach.map fun ⟨arg, harg⟩ => parse arg, false⟩
      | none => named text
termination_by cs.length
decreasing_by
  · exact Nat.lt_of_lt_of_le (length_lt_of_nullableBody? hnullable) (length_trim_le cs)
  · exact Nat.lt_of_lt_of_le (length_lt_of_arrayBody? harray) (length_trim_le cs)
  · exact Nat.lt_of_lt_of_le (length_lt_of_application? happly arg harg) (length_trim_le cs)

/-- How the type that a text denotes depends on its form. -/
theorem parse_eq (cs : List Char) :
    parse cs =
      match nullableBody? (trim cs) with
      | some body => (parse body).orNull
      | none =>
        match arrayBody? (trim cs) with
        | some body => array (parse body)
        | none =>
          match application? (trim cs) with
          | some (name, args) => ⟨String.ofList name, args.map parse, false⟩
          | none => named (trim cs) := by
  rw [parse]
  split
  · rename_i h
    rw [h]
  · rename_i h
    rw [h]
    dsimp only
    split
    · rename_i h
      rw [h]
    · rename_i h
      rw [h]
      dsimp only
      split
      · rename_i h
        rw [h]
        simp
      · rename_i h
        rw [h]

end Precis.TypeExpr
