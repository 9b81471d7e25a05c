import Mathlib.Algebra.Order.BigOperators.Group.List
import Mathlib.Algebra.Order.Ring.Nat
import Precis.Proofs.Annotations.Unions
import Precis.Proofs.Types.Substance

/-! # The two spellings of a type that may be null

`Optional[T]` and `T | None` are read along different ways. The argument of `Optional` is read as a
type, the union is taken apart and what is left of it is read as an annotation. They meet unless
`T` itself says that it may be null or is a union that is not spelled as unions are written. Where
they do not meet, one reading has lost characters that the other still has. -/

namespace Precis.Python

open Text Brackets TypeExpr

/-! ## The weight of a union -/

/-- The weight of some alternatives, with a bar for each. -/
def load (parts : List (List Char)) : Nat :=
  (parts.map fun part => (substance part).length + 1).sum

theorem load_cons (part : List Char) (rest : List (List Char)) :
    load (part :: rest) = (substance part).length + 1 + load rest := by
  rw [load, List.map_cons, List.sum_cons, load]

theorem length_substance_intercalate {parts : List (List Char)} (hne : parts ≠ []) :
    (substance (['|'].intercalate parts)).length + 1 = load parts := by
  induction parts with
  | nil => exact absurd rfl hne
  | cons part rest ih =>
      cases rest with
      | nil => rw [List.intercalate_singleton, load_cons]; rfl
      | cons next rest =>
          have hbar : (substance ['|']).length = 1 := rfl
          have hrest := ih (List.cons_ne_nil _ _)
          rw [List.intercalate_cons_cons, load_cons, substance_append, substance_append,
            List.length_append, List.length_append]
          omega

theorem substance_unionOf (parts : List (List Char)) :
    substance (unionOf parts) = substance (['|'].intercalate parts) := by
  unfold unionOf
  induction parts with
  | nil => rfl
  | cons part rest ih =>
      cases rest with
      | nil => rw [joinWith, List.intercalate_singleton]
      | cons next rest =>
          have hbar : substance [' ', '|', ' '] = substance ['|'] := rfl
          rw [joinWith, List.intercalate_cons_cons, substance_append, substance_append, ih, hbar,
            substance_append, substance_append]

theorem load_alternatives (cs : List Char) :
    load (alternatives cs) = (substance cs).length + 1 := by
  have hraw := length_substance_intercalate (splitFrom_ne_nil (b := ofUnions) '|' 0 cs)
  rw [intercalate_splitFrom] at hraw
  rw [hraw, load, alternatives, split, List.map_map, load]
  refine congrArg List.sum (List.map_congr_left fun part _ => ?_)
  rw [Function.comp, substance_trim]

theorem load_others_le (parts : List (List Char)) : load (others parts) ≤ load parts :=
  List.Sublist.sum_le_sum (List.filter_sublist.map _) fun _ _ => Nat.zero_le _

/-- An alternative for null weighs something. -/
theorem load_others_lt {parts : List (List Char)} (h : noneName ∈ parts) :
    load (others parts) + 1 < load parts := by
  induction parts with
  | nil => cases h
  | cons part rest ih =>
      by_cases hpart : part = noneName
      · have hnone : (substance noneName).length = 4 := rfl
        have hle := load_others_le rest
        have hothers : others (part :: rest) = others rest := by simp [others, hpart]
        rw [hothers, load_cons, hpart]
        omega
      · have hrest := ih (List.mem_of_ne_of_mem (Ne.symm hpart) h)
        have hothers : others (part :: rest) = part :: others rest := by simp [others, hpart]
        rw [hothers, load_cons, load_cons]
        omega

theorem length_substance_others_lt {cs : List Char} (h : noneName ∈ alternatives cs) :
    (substance (unionOf (others (alternatives cs)))).length < (substance cs).length := by
  have hload := load_alternatives cs
  have hlt := load_others_lt h
  rw [substance_unionOf]
  by_cases hne : others (alternatives cs) = []
  · rw [hne] at hlt ⊢
    have hnil : (substance (['|'].intercalate [])).length = 0 := rfl
    have hzero : load [] = 0 := rfl
    omega
  · have hothers := length_substance_intercalate hne
    omega

/-! ## Optional types -/

/-- A type is `Optional` of one argument. -/
def IsOptional (t : TypeExpr) : Prop :=
  (t.name = "Optional" ∨ t.name = "typing.Optional") ∧ ∃ arg, t.args = [arg]

theorem alternative_of_not_isOptional {cs : List Char} (h : ¬ IsOptional (parse cs)) :
    alternative cs = parse cs := by
  unfold alternative
  dsimp only
  split
  · rename_i arg harg
    exact if_neg fun hname => h ⟨hname, arg, harg⟩
  · rfl

/-- The argument of `Optional` weighs less than the whole. -/
theorem weight_alternative_lt {cs : List Char} (h : IsOptional (parse cs)) :
    (alternative cs).weight < (parse cs).weight := by
  obtain ⟨hname, arg, harg⟩ := h
  have halternative : alternative cs = arg.orNull := by
    unfold alternative
    dsimp only
    rw [harg]
    exact if_pos hname
  have hpos : 0 < (substance (parse cs).name.toList).length := by
    rcases hname with hname | hname <;> rw [hname] <;> decide
  rw [halternative, weight_orNull]
  cases hparse : parse cs with
  | mk name args nullable =>
      rw [hparse] at harg hpos
      obtain rfl : args = [arg] := harg
      change 0 < (substance name.toList).length at hpos
      simp only [weight, weightAll]
      omega

theorem weight_alternative_le (cs : List Char) :
    (alternative cs).weight ≤ (substance cs).length := by
  rw [← weight_parse]
  by_cases h : IsOptional (parse cs)
  · exact Nat.le_of_lt (weight_alternative_lt h)
  · rw [alternative_of_not_isOptional h]

theorem weight_remainder_le (parts : List (List Char)) :
    (remainder parts).weight ≤ (substance (unionOf parts)).length := by
  unfold remainder
  split
  · exact weight_alternative_le _
  · exact Nat.le_of_eq (weight_parse _)

/-! ## The two spellings -/

/-- A text that may stand in brackets as the only argument: it is not blank, its brackets balance,
and no comma stands outside them. -/
structure IsArgument (t : List Char) : Prop where
  nonblank : allBlank t = false
  single : ofTypes.Solid (· == ',') 0 t
  balanced : ofUnions.Closing 0 t

/-- `Optional[T]`. -/
def optional (t : List Char) : List Char :=
  "Optional[".toList ++ (t ++ [']'])

/-- `T | None`. -/
def orNone (t : List Char) : List Char :=
  t ++ " | None".toList

variable {t : List Char}

theorem parse_optional (h : IsArgument t) : parse (optional t) = ⟨"Optional", [parse t], false⟩ := by
  have hpath : isPath "Optional".toList = true := by decide +kernel
  have htight : Tight "Optional".toList :=
    ⟨⟨'O', "ptional".toList, rfl, by decide⟩, ⟨"Optiona".toList, 'l', rfl, by decide⟩⟩
  have hne : t ≠ [] := by
    rintro rfl
    exact absurd h.nonblank (by decide)
  have hparse : parse ("Optional".toList ++ ([] ++ '[' :: (t ++ [']']))) = _ :=
    parse_bracketed hpath htight rfl rfl rfl rfl hne h.single.closing
  have htrim : trim t ≠ [] := by
    rw [ne_eq, trim_eq_nil_iff, h.nonblank]
    exact Bool.false_ne_true
  rw [split_of_solid h.single, List.filter_cons_of_pos (by simpa using htrim), List.filter_nil,
    List.map_singleton, parse_trim] at hparse
  exact hparse

/-- A bracketed text has one alternative. -/
theorem alternatives_optional (h : ofUnions.Closing 0 t) :
    (alternatives (optional t)).length = 1 := by
  have hname : ofUnions.Solid (· == '|') 0 "Optional".toList := by decide
  have hsolid : ofUnions.Solid (· == '|') 0 (optional t) :=
    hname.append (.opener rfl (Solid.inside h (.closer rfl rfl .nil)))
  rw [alternatives, split_of_solid hsolid, List.length_singleton]

theorem annotation_optional (h : IsArgument t) : annotation (optional t) = (parse t).orNull := by
  rw [annotation_of_alternative (alternatives_optional h.balanced), alternative, parse_optional h]
  rfl

theorem annotation_orNone (h : ofUnions.Closing 0 t) :
    annotation (orNone t) = (remainder (others (alternatives t))).orNull := by
  have hparts : alternatives (orNone t) = alternatives t ++ [noneName] := by
    rw [orNone, show " | None".toList = [' ', '|', ' '] ++ noneName from rfl,
      alternatives_append_bar h, isAlternative_noneName.alternatives_eq]
  have hpos := List.length_pos_iff.mpr (alternatives_ne_nil t)
  rw [annotation_of_none, hparts]
  · simp [others]
  · rw [hparts, List.length_append, List.length_singleton]
    omega
  · rw [hparts]
    exact List.mem_append_right _ (List.mem_singleton.mpr rfl)

/-- A text with one alternative is that alternative. -/
theorem alternatives_of_single {cs : List Char} (h : (alternatives cs).length = 1) :
    alternatives cs = [trim cs] := by
  have hraw := intercalate_splitFrom (b := ofUnions) '|' 0 cs
  rw [alternatives, split, List.length_map] at h
  obtain ⟨part, hpart⟩ := List.length_eq_one_iff.mp h
  rw [hpart, List.intercalate_singleton] at hraw
  rw [alternatives, split, hpart, hraw, List.map_singleton]

/-- The readings cannot agree if one has lost an alternative for null. -/
theorem notMem_of_orNull_eq
    (h : (parse t).orNull = (remainder (others (alternatives t))).orNull) :
    noneName ∉ alternatives t := by
  intro hnone
  have hweight := congrArg weight h
  have hle := weight_remainder_le (others (alternatives t))
  have hlt := length_substance_others_lt hnone
  rw [weight_orNull, weight_orNull, weight_parse] at hweight
  omega

/-- The readings cannot agree if one has taken off an `Optional`. -/
theorem not_isOptional_of_orNull_eq (hsingle : (alternatives t).length = 1)
    (h : (parse t).orNull = (remainder (alternatives t)).orNull) : ¬ IsOptional (parse t) := by
  intro hoptional
  have hweight := congrArg weight h
  rw [← parse_trim] at hoptional
  have hlt := weight_alternative_lt hoptional
  rw [alternatives_of_single hsingle, remainder, weight_orNull, weight_orNull] at hweight
  rw [parse_trim] at hlt
  omega

/-- Where the readings agree, in terms of the alternatives. -/
theorem orNull_eq_remainder_iff :
    (parse t).orNull = (remainder (others (alternatives t))).orNull ↔
      noneName ∉ alternatives t ∧
      ((alternatives t).length = 1 → ¬ IsOptional (parse t)) ∧
      (parse (unionOf (alternatives t))).orNull = (parse t).orNull := by
  have hpos : 0 < (alternatives t).length := List.length_pos_iff.mpr (alternatives_ne_nil t)
  constructor
  · intro heq
    have hnone := notMem_of_orNull_eq heq
    rw [others_of_notMem hnone] at heq
    refine ⟨hnone, fun hsingle => not_isOptional_of_orNull_eq hsingle heq, ?_⟩
    rcases Nat.lt_or_eq_of_le hpos with hmany | hsingle
    · rw [heq, remainder_of_many hmany]
    · rw [alternatives_of_single hsingle.symm, unionOf_singleton, parse_trim]
  · rintro ⟨hnone, hoptional, hunion⟩
    rw [others_of_notMem hnone]
    rcases Nat.lt_or_eq_of_le hpos with hmany | hsingle
    · rw [remainder_of_many hmany, hunion]
    · have hplain : ¬ IsOptional (parse (trim t)) := by
        rw [parse_trim]
        exact hoptional hsingle.symm
      rw [alternatives_of_single hsingle.symm, remainder, alternative_of_not_isOptional hplain,
        parse_trim]

/-- The two spellings of an optional type agree just where none of the alternatives of `T` stands
for null, `T` is not itself an `Optional`, and writing its alternatives out anew changes nothing
about the type. -/
theorem optional_agrees_iff (h : IsArgument t) :
    annotation (optional t) = (parse t).orNull ∧
    ( annotation (optional t) = annotation (orNone t) ↔
      noneName ∉ alternatives t ∧
      ((alternatives t).length = 1 → ¬ IsOptional (parse t)) ∧
      (parse (unionOf (alternatives t))).orNull = (parse t).orNull) ∧
    (noneName ∉ alternatives t → ¬ IsOptional (parse t) → unionOf (alternatives t) = trim t →
      annotation (optional t) = annotation (orNone t)) := by
  rw [annotation_optional h, annotation_orNone h.balanced]
  refine ⟨rfl, orNull_eq_remainder_iff, ?_⟩
  intro hnone hoptional hunion
  rw [orNull_eq_remainder_iff, hunion, parse_trim]
  exact ⟨hnone, fun _ => hoptional, rfl⟩

theorem parse_listOrNull :
    parse "list[int | None]".toList = ⟨"list", [parse "int | None".toList], false⟩ := by
  have hpath : isPath "list".toList = true := by decide +kernel
  have htight : Tight "list".toList :=
    ⟨⟨'l', "ist".toList, rfl, by decide⟩, ⟨"lis".toList, 't', rfl, by decide⟩⟩
  have hclosing : ofTypes.Closing 0 "int | None".toList := by decide
  exact parse_bracketed hpath htight (rfl : allBlank [] = true) (rfl : opensArgs '[' = true)
    (rfl : ofTypes.opens ']' = false) rfl (List.cons_ne_nil _ _) hclosing

/-- An alternative for null inside brackets is none of the whole. -/
theorem optional_agrees_iff_listOrNull :
    IsArgument "list[int | None]".toList ∧
    annotation "Optional[list[int | None]]".toList =
      annotation "list[int | None] | None".toList := by
  have hlist : IsArgument "list[int | None]".toList := ⟨rfl, by decide, by decide⟩
  have hoptional : ¬ IsOptional (parse "list[int | None]".toList) := by
    rw [parse_listOrNull]
    rintro ⟨hname, -⟩
    simp at hname
  exact ⟨hlist, (optional_agrees_iff hlist).2.2 (by decide) hoptional (by decide)⟩

/-- Where `T` is itself `Optional[int]` only one reading takes both off, where it is `int | None`
only one drops the inner null, and where it is `int|str` only one writes the bar anew. -/
theorem optional_disagrees :
    (IsArgument "Optional[int]".toList ∧
      annotation (optional "Optional[int]".toList) ≠ annotation (orNone "Optional[int]".toList)) ∧
    (IsArgument "int | None".toList ∧
      annotation (optional "int | None".toList) ≠ annotation (orNone "int | None".toList)) ∧
    IsArgument "int|str".toList ∧
      annotation (optional "int|str".toList) ≠ annotation (orNone "int|str".toList) := by
  refine ⟨?_, ?_, ?_⟩
  · have h : IsArgument "Optional[int]".toList := ⟨rfl, by decide, by decide⟩
    have hint : IsArgument "int".toList := ⟨rfl, by decide, by decide⟩
    have hoptional : IsOptional (parse (optional "int".toList)) := by
      rw [parse_optional hint]
      exact ⟨.inl rfl, _, rfl⟩
    refine ⟨h, ?_⟩
    rw [annotation_optional h, annotation_orNone h.balanced, others_of_notMem (by decide)]
    exact fun heq => not_isOptional_of_orNull_eq (by decide) heq hoptional
  · have h : IsArgument "int | None".toList := ⟨rfl, by decide, by decide⟩
    refine ⟨h, ?_⟩
    rw [annotation_optional h, annotation_orNone h.balanced]
    exact fun heq => notMem_of_orNull_eq heq (by decide)
  · have h : IsArgument "int|str".toList := ⟨rfl, by decide, by decide⟩
    have hplain : parse "int|str".toList = ⟨"int|str", [], false⟩ := by
      rw [parse_eq]
      rfl
    have hunion : annotation (orNone "int|str".toList) = ⟨"int | str", [], true⟩ := by
      decide +kernel
    refine ⟨h, ?_⟩
    rw [annotation_optional h, hplain, hunion]
    simp [orNull]

end Precis.Python
