import Precis.Frontend.PythonAnnotation
import Precis.Proofs.Types.Brackets
import Mathlib.Logic.Relation

/-! # Unions with alternatives for null

The alternatives of a union are found by cutting its text where no bracket is open. Which of them
stand for null and where makes no difference: what is left of the alternatives is the same before
and after one more is put in. -/

namespace Precis.Python

open Text Brackets

/-! ## Writing and cutting unions -/

/-- The union of some alternatives, written out. -/
def unionOf (parts : List (List Char)) : List Char :=
  joinWith [' ', '|', ' '] parts

/-- The alternatives of a union that do not stand for null. -/
def others (parts : List (List Char)) : List (List Char) :=
  parts.filter fun part => part ≠ noneName

theorem unionOf_singleton (part : List Char) : unionOf [part] = part := rfl

theorem others_of_notMem {parts : List (List Char)} (h : noneName ∉ parts) :
    others parts = parts := by
  apply List.filter_eq_self.mpr
  intro part hpart
  simpa using ne_of_mem_of_not_mem hpart h

theorem isPlain_of_isBlank {c : Char} (h : isBlank c = true) : ofUnions.IsPlain (· == '|') c := by
  constructor
  · by_contra hopens
    simp only [ofUnions, Bool.not_eq_false, Bool.or_eq_true, beq_iff_eq] at hopens
    rcases hopens with rfl | rfl <;> exact absurd h (by decide)
  · by_contra hcloses
    simp only [ofUnions, Bool.not_eq_false, Bool.or_eq_true, beq_iff_eq] at hcloses
    rcases hcloses with rfl | rfl <;> exact absurd h (by decide)
  · by_contra hcut
    obtain rfl : c = '|' := by simpa using hcut
    exact absurd h (by decide)

theorem alternatives_ne_nil (cs : List Char) : alternatives cs ≠ [] := by
  rw [alternatives, split, ne_eq, List.map_eq_nil_iff]
  exact splitFrom_ne_nil _ _ _

theorem alternatives_trim (cs : List Char) : alternatives (trim cs) = alternatives cs :=
  split_trim (fun _ => isPlain_of_isBlank) cs

/-- A bar between blanks parts what precedes it from what follows. -/
theorem alternatives_append_bar {cs : List Char} (h : ofUnions.Closing 0 cs)
    (rest : List Char) :
    alternatives (cs ++ ([' ', '|', ' '] ++ rest)) = alternatives cs ++ alternatives rest := by
  have hspace : ofUnions.Closing 0 (cs ++ [' ']) := h.append (.other rfl rfl (by decide) .nil)
  rw [show cs ++ ([' ', '|', ' '] ++ rest) = (cs ++ [' ']) ++ '|' :: (' ' :: rest) by simp,
    alternatives, split_append_separator hspace rfl rfl,
    split_append_blank (by decide) (isPlain_of_isBlank (by decide)),
    split_blank_cons (by decide) (isPlain_of_isBlank (by decide))]
  rfl

/-- A text that may stand among the alternatives of a union. -/
structure IsAlternative (cs : List Char) : Prop where
  trimmed : trim cs = cs
  solid : ofUnions.Solid (· == '|') 0 cs

theorem isAlternative_noneName : IsAlternative noneName :=
  ⟨by decide, by decide⟩

theorem IsAlternative.alternatives_eq {cs : List Char} (h : IsAlternative cs) :
    alternatives cs = [cs] := by
  rw [alternatives, split_of_solid h.solid, h.trimmed]

/-- Cutting a written union gives back its alternatives. -/
theorem alternatives_unionOf {parts : List (List Char)} (hne : parts ≠ [])
    (h : ∀ part ∈ parts, IsAlternative part) : alternatives (unionOf parts) = parts := by
  induction parts with
  | nil => exact absurd rfl hne
  | cons part rest ih =>
      obtain ⟨hpart, hrest⟩ := List.forall_mem_cons.mp h
      cases rest with
      | nil => exact hpart.alternatives_eq
      | cons next rest =>
          have hunion : unionOf (part :: next :: rest) =
              part ++ ([' ', '|', ' '] ++ unionOf (next :: rest)) := by
            simp [unionOf, joinWith]
          rw [hunion, alternatives_append_bar hpart.solid.closing, hpart.alternatives_eq,
            ih (List.cons_ne_nil _ _) hrest, List.singleton_append]

/-! ## Reading unions -/

/-- The type that some alternatives denote, none of which stands for null. -/
def remainder : List (List Char) → TypeExpr
  | [part] => alternative part
  | parts => TypeExpr.parse (unionOf parts)

theorem remainder_of_many {parts : List (List Char)} (h : 1 < parts.length) :
    remainder parts = TypeExpr.parse (unionOf parts) := by
  unfold remainder
  split
  · simp at h
  · rfl

theorem annotation_of_alternative {cs : List Char} (h : (alternatives cs).length = 1) :
    annotation cs = alternative cs := by
  unfold annotation
  dsimp only
  rw [alternatives_trim, h]
  simp

/-- A union with null denotes what its other alternatives denote, or null. -/
theorem annotation_of_none {cs : List Char} (hlength : 1 < (alternatives cs).length)
    (hnone : noneName ∈ alternatives cs) :
    annotation cs = (remainder (others (alternatives cs))).orNull := by
  unfold annotation
  rw [alternatives_trim]
  simp only [hlength, hnone, and_self, if_true]
  change (match others (alternatives cs) with
    | [part] => (alternative part).orNull
    | rest => (TypeExpr.parse (joinWith [' ', '|', ' '] rest)).orNull) = _
  unfold remainder
  split <;> rfl

/-! ## Alternatives for null -/

/-- A text is put in front of some texts, between two of them or behind them. -/
inductive Inserts (text : List Char) : List (List Char) → List (List Char) → Prop where
  | between (before after : List (List Char)) :
      Inserts text (before ++ after) (before ++ text :: after)

/-- What an alternative for null changes: there is one more entry, which is no other one. -/
theorem Inserts.others_eq {parts parts' : List (List Char)} (h : Inserts noneName parts parts') :
    others parts' = others parts ∧ noneName ∈ parts' ∧ parts'.length = parts.length + 1 ∧
      ∀ part ∈ parts', part ∈ parts ∨ part = noneName := by
  obtain ⟨before, after⟩ := h
  refine ⟨?_, by simp, by simp; omega, ?_⟩
  · simp [others]
  · intro part hpart
    simp only [List.mem_append, List.mem_cons] at hpart ⊢
    rcases hpart with hpart | rfl | hpart
    · exact .inl (.inl hpart)
    · exact .inr rfl
    · exact .inl (.inr hpart)

/-- What some alternatives for null change. -/
theorem others_of_inserted {parts parts' : List (List Char)}
    (h : Relation.TransGen (Inserts noneName) parts parts') :
    others parts' = others parts ∧ noneName ∈ parts' ∧ parts.length < parts'.length ∧
      ∀ part ∈ parts', part ∈ parts ∨ part = noneName := by
  induction h with
  | single hstep =>
      obtain ⟨hothers, hnone, hlength, hparts⟩ := hstep.others_eq
      exact ⟨hothers, hnone, by omega, hparts⟩
  | tail _ hstep ih =>
      obtain ⟨hothers, hnone, hlength, hparts⟩ := hstep.others_eq
      refine ⟨hothers.trans ih.1, hnone, by omega, ?_⟩
      intro part hpart
      rcases hparts part hpart with hpart | rfl
      · exact ih.2.2.2 part hpart
      · exact .inr rfl

/-- However many alternatives for null a union has and wherever they stand, it denotes what the
other alternatives denote, or null. -/
theorem annotation_inserted {parts parts' : List (List Char)} (hne : parts ≠ [])
    (hparts : ∀ part ∈ parts, IsAlternative part ∧ part ≠ noneName)
    (h : Relation.TransGen (Inserts noneName) parts parts') :
    ( annotation (unionOf parts')).nullable = true ∧
    (∀ part, parts = [part] → annotation (unionOf parts') = ( annotation part).orNull) ∧
    (1 < parts.length →
      annotation (unionOf parts') = (TypeExpr.parse (unionOf parts)).orNull) := by
  obtain ⟨hothers, hnone, hlength, hmem⟩ := others_of_inserted h
  have hself : others parts = parts :=
    others_of_notMem fun hmem => (hparts noneName hmem).2 rfl
  have hpos : 0 < parts.length := List.length_pos_iff.mpr hne
  have halternatives : alternatives (unionOf parts') = parts' := by
    refine alternatives_unionOf (List.ne_nil_of_mem hnone) ?_
    intro part hpart
    rcases hmem part hpart with hpart | rfl
    · exact (hparts part hpart).1
    · exact isAlternative_noneName
  have hread : annotation (unionOf parts') = (remainder parts).orNull := by
    rw [annotation_of_none, halternatives, hothers, hself]
    · rw [halternatives]
      omega
    · rwa [halternatives]
  refine ⟨by rw [hread]; rfl, ?_, ?_⟩
  · rintro part rfl
    have hpart := (hparts part (List.mem_singleton.mpr rfl)).1.alternatives_eq
    rw [hread, annotation_of_alternative (by rw [hpart]; rfl), remainder]
  · intro hmany
    rw [hread, remainder_of_many hmany]

/-- The alternatives `int` and `list[int | None]`. -/
def intOrList : List (List Char) :=
  ["int".toList, "list[int | None]".toList]

theorem isAlternative_intOrList : ∀ part ∈ intOrList, IsAlternative part ∧ part ≠ noneName := by
  refine List.forall_mem_cons.mpr ⟨⟨⟨?_, ?_⟩, ?_⟩,
    List.forall_mem_cons.mpr ⟨⟨⟨?_, ?_⟩, ?_⟩, List.forall_mem_nil _⟩⟩ <;> decide

/-- `None | int` denotes what `int` denotes, or null, and `None | int | None | list[int | None]`
what `int | list[int | None]` denotes, or null. -/
theorem annotation_inserted_intOrList :
    ((∀ part ∈ ["int".toList], IsAlternative part ∧ part ≠ noneName) ∧
      Relation.TransGen (Inserts noneName) ["int".toList] [noneName, "int".toList] ∧
      annotation "None | int".toList = ( annotation "int".toList).orNull) ∧
    (∀ part ∈ intOrList, IsAlternative part ∧ part ≠ noneName) ∧
    Relation.TransGen (Inserts noneName) intOrList
      (noneName :: "int".toList :: noneName :: ["list[int | None]".toList]) ∧
    1 < intOrList.length ∧
    annotation "None | int | None | list[int | None]".toList =
      (TypeExpr.parse "int | list[int | None]".toList).orNull := by
  have hint : ∀ part ∈ ["int".toList], IsAlternative part ∧ part ≠ noneName :=
    fun part hpart => isAlternative_intOrList part
      (List.mem_of_mem_head? (List.mem_singleton.mp hpart ▸ rfl))
  have hone : Relation.TransGen (Inserts noneName) ["int".toList] [noneName, "int".toList] :=
    .single (.between [] _)
  have hinserted : Relation.TransGen (Inserts noneName) intOrList
      (noneName :: "int".toList :: noneName :: ["list[int | None]".toList]) :=
    .tail (.single (.between ["int".toList] _)) (.between [] _)
  refine ⟨⟨hint, hone, ?_⟩, isAlternative_intOrList, hinserted, by decide, ?_⟩
  · exact (annotation_inserted (List.cons_ne_nil _ _) hint hone).2.1 _ rfl
  · exact (annotation_inserted (List.cons_ne_nil _ _) isAlternative_intOrList hinserted).2.2
      (by decide)

end Precis.Python
