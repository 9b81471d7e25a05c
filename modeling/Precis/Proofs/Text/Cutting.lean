import Precis.Text.Cut

/-! # Where a separator cuts a text

A separator stands first where no character before it could begin one, and last where no character
after it could end one. -/

namespace Precis.Text

variable {c : Char} {separator : List Char}

/-! ## The first separator -/

theorem dropPrefix?_cons_of_ne {d : Char} (h : c ≠ d) (cs : List Char) :
    dropPrefix? (c :: separator) (d :: cs) = none :=
  if_neg h

theorem splitFirst?_eq_none {cs : List Char} (h : c ∉ cs) :
    splitFirst? (c :: separator) cs = none := by
  induction cs with
  | nil => rfl
  | cons d cs ih =>
      rw [List.mem_cons, not_or] at h
      rw [splitFirst?, dropPrefix?_cons_of_ne h.1, ih h.2]
      rfl

theorem splitFirst?_append {before : List Char} (h : c ∉ before) (after : List Char) :
    splitFirst? (c :: separator) (before ++ (c :: separator ++ after)) = some (before, after) := by
  induction before with
  | nil =>
      rw [List.nil_append, List.cons_append, splitFirst?,
        dropPrefix?_eq_some_iff.mpr (rfl : c :: (separator ++ after) = c :: separator ++ after)]
  | cons d before ih =>
      rw [List.mem_cons, not_or] at h
      rw [List.cons_append, splitFirst?, dropPrefix?_cons_of_ne h.1, ih h.2]
      rfl

/-- The two parts and the separator make up the text. -/
theorem append_of_splitFirst? {separator cs before after : List Char}
    (h : splitFirst? separator cs = some (before, after)) :
    cs = before ++ (separator ++ after) := by
  induction cs generalizing before with
  | nil =>
      obtain ⟨rest, hrest, hparts⟩ := Option.map_eq_some_iff.mp h
      obtain ⟨rfl, rfl⟩ := Prod.mk.inj hparts
      simpa using dropPrefix?_eq_some_iff.mp hrest
  | cons d cs ih =>
      rw [splitFirst?] at h
      split at h
      · rename_i rest hrest
        obtain ⟨rfl, rfl⟩ := Prod.mk.inj (Option.some.inj h)
        simpa using dropPrefix?_eq_some_iff.mp hrest
      · obtain ⟨⟨first, rest⟩, hparts, heq⟩ := Option.map_eq_some_iff.mp h
        obtain ⟨rfl, rfl⟩ := Prod.mk.inj heq
        rw [ih hparts, List.cons_append]

/-! ## The last separator -/

theorem append_of_splitLast? {separator cs before after : List Char}
    (h : splitLast? separator cs = some (before, after)) : cs = before ++ (separator ++ after) := by
  obtain ⟨⟨first, rest⟩, hparts, heq⟩ := Option.map_eq_some_iff.mp h
  obtain ⟨rfl, rfl⟩ := Prod.mk.inj heq
  simpa using congrArg List.reverse (append_of_splitFirst? hparts)

/-- What follows the last separator is the end of the text. -/
theorem afterLast_suffix (separator cs : List Char) : afterLast separator cs <:+ cs := by
  unfold afterLast
  split
  · rename_i parts hparts
    have hcs := append_of_splitLast? hparts
    exact ⟨parts.1 ++ separator, by rw [List.append_assoc, ← hcs]⟩
  · exact List.suffix_rfl

theorem splitLast?_eq_none {cs : List Char} (h : c ∉ cs) :
    splitLast? (separator ++ [c]) cs = none := by
  rw [splitLast?, List.reverse_append, List.reverse_singleton, List.singleton_append,
    splitFirst?_eq_none (by simpa using h)]
  rfl

theorem splitLast?_append (before : List Char) {after : List Char} (h : c ∉ after) :
    splitLast? (separator ++ [c]) (before ++ (separator ++ [c] ++ after)) =
      some (before, after) := by
  have hreverse : (before ++ (separator ++ [c] ++ after)).reverse =
      after.reverse ++ (c :: separator.reverse ++ before.reverse) := by
    simp
  rw [splitLast?, hreverse, List.reverse_append, List.reverse_singleton, List.singleton_append,
    splitFirst?_append (by simpa using h), Option.map_some, List.reverse_reverse,
    List.reverse_reverse]

/-! ## Repeated separators -/

theorem dropPrefixes_of_ne {d : Char} (h : c ≠ d) (cs : List Char) :
    dropPrefixes (c :: separator) (d :: cs) = d :: cs := by
  rw [dropPrefixes, dif_neg (List.cons_ne_nil _ _)]
  split
  · rename_i hrest
    rw [dropPrefix?_cons_of_ne h] at hrest
    cases hrest
  · rfl

theorem dropPrefixes_append (h : separator ≠ []) (cs : List Char) :
    dropPrefixes separator (separator ++ cs) = dropPrefixes separator cs := by
  rw [dropPrefixes, dif_neg h]
  split
  · rename_i rest hrest
    rw [dropPrefix?_eq_some_iff, List.append_cancel_left_eq] at hrest
    rw [hrest]
  · rename_i hrest
    rw [dropPrefix?_eq_some_iff.mpr rfl] at hrest
    cases hrest

/-- A separator at the end is dropped, and nothing more if the text before it ends otherwise. -/
theorem dropSuffixes_append {d : Char} (h : c ≠ d) (cs : List Char) :
    dropSuffixes (separator ++ [c]) (cs ++ [d] ++ (separator ++ [c])) = cs ++ [d] := by
  have hreverse : (cs ++ [d] ++ (separator ++ [c])).reverse =
      (separator ++ [c]).reverse ++ d :: cs.reverse := by
    simp
  rw [dropSuffixes, hreverse, dropPrefixes_append (by simp), List.reverse_append,
    List.reverse_singleton, List.singleton_append, dropPrefixes_of_ne h, List.reverse_cons,
    List.reverse_reverse]

end Precis.Text
