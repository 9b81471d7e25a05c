/-!
# Cutting texts

Removing a fixed beginning or end, and cutting a text at the first or the last place where a fixed
separator stands.
-/

namespace Precis.Text

/-- What follows `start` in a text that begins with it. -/
def dropPrefix? : List Char → List Char → Option (List Char)
  | [], cs => some cs
  | _ :: _, [] => none
  | p :: ps, c :: cs => if p = c then dropPrefix? ps cs else none

/-- What precedes `ending` in a text that ends with it. -/
def dropSuffix? (ending cs : List Char) : Option (List Char) :=
  (dropPrefix? ending.reverse cs.reverse).map List.reverse

/-- Whether the text begins with `start`. -/
def startsWith (start cs : List Char) : Bool :=
  (dropPrefix? start cs).isSome

/-- Whether the text ends with `ending`. -/
def endsWith (ending cs : List Char) : Bool :=
  (dropSuffix? ending cs).isSome

theorem dropPrefix?_eq_some_iff {start cs rest : List Char} :
    dropPrefix? start cs = some rest ↔ cs = start ++ rest := by
  induction start generalizing cs with
  | nil => simp [dropPrefix?]
  | cons p ps ih =>
    cases cs with
    | nil => simp [dropPrefix?]
    | cons c cs =>
      by_cases h : p = c
      · simp [dropPrefix?, h, ih]
      · simp [dropPrefix?, h, Ne.symm h]

theorem dropSuffix?_eq_some_iff {ending cs rest : List Char} :
    dropSuffix? ending cs = some rest ↔ cs = rest ++ ending := by
  simp only [dropSuffix?, Option.map_eq_some_iff, dropPrefix?_eq_some_iff]
  constructor
  · rintro ⟨a, ha, rfl⟩
    simpa using congrArg List.reverse ha
  · rintro rfl
    exact ⟨rest.reverse, by simp, by simp⟩

set_option linter.unusedVariables false in
/-- Removes `start` from the beginning as often as it stands there; an empty `start` removes
nothing. -/
def dropPrefixes (start : List Char) (cs : List Char) : List Char :=
  if hstart : start = [] then cs else
    match hrest : dropPrefix? start cs with
    | some rest => dropPrefixes start rest
    | none => cs
termination_by cs.length
decreasing_by
  rw [dropPrefix?_eq_some_iff] at hrest
  have : 0 < start.length := List.length_pos_iff.2 hstart
  rw [hrest, List.length_append]
  omega

/-- Removes `ending` from the end as often as it stands there. -/
def dropSuffixes (ending cs : List Char) : List Char :=
  (dropPrefixes ending.reverse cs.reverse).reverse

/-- The texts before and after the first place where `separator` stands. -/
def splitFirst? (separator : List Char) : List Char → Option (List Char × List Char)
  | [] => (dropPrefix? separator []).map fun rest => ([], rest)
  | c :: cs =>
    match dropPrefix? separator (c :: cs) with
    | some rest => some ([], rest)
    | none => (splitFirst? separator cs).map fun parts => (c :: parts.1, parts.2)

/-- The texts before and after the last place where `separator` stands. -/
def splitLast? (separator cs : List Char) : Option (List Char × List Char) :=
  (splitFirst? separator.reverse cs.reverse).map fun parts => (parts.2.reverse, parts.1.reverse)

/-- What follows the last place where `separator` stands; the whole text if it stands nowhere. -/
def afterLast (separator cs : List Char) : List Char :=
  match splitLast? separator cs with
  | some parts => parts.2
  | none => cs

end Precis.Text
