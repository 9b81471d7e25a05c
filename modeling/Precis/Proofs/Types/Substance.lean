import Precis.Proofs.Types.Stability

/-! # The substance of a type

Reading a type cuts its text at suffixes, brackets and commas, and writing it out puts others in
their place. What is neither white space nor one of these signs comes through whole and in order. -/

namespace Precis.TypeExpr

open Text Brackets

/-- White space, commas, marks for null and brackets. -/
def isOrnament (c : Char) : Bool :=
  isBlank c || [',', '?', '<', '>', '[', ']', '(', ')'].contains c

/-- What is left of a text without its ornaments. -/
def substance (cs : List Char) : List Char :=
  cs.filter fun c => !isOrnament c

/-! ## Texts put together -/

theorem substance_append (xs ys : List Char) :
    substance (xs ++ ys) = substance xs ++ substance ys :=
  List.filter_append xs ys

theorem substance_cons_of_isOrnament {c : Char} (h : isOrnament c = true) (cs : List Char) :
    substance (c :: cs) = substance cs :=
  List.filter_cons_of_neg (by simp [h])

theorem substance_of_blanks {cs : List Char} (h : ∀ c ∈ cs, isBlank c = true) :
    substance cs = [] := by
  apply List.filter_eq_nil_iff.mpr
  intro c hc
  simp [isOrnament, h c hc]

theorem substance_trim (cs : List Char) : substance (trim cs) = substance cs := by
  obtain ⟨before, after, hcs, hbefore, hafter⟩ := trim_spec cs
  rw [hcs, substance_append, substance_append, ← hcs, substance_of_blanks hbefore,
    substance_of_blanks hafter, List.nil_append, List.append_nil]

theorem isOrnament_of_opensArgs {c : Char} (h : opensArgs c = true) : isOrnament c = true := by
  simp only [opensArgs, Bool.or_eq_true, beq_iff_eq] at h
  rcases h with rfl | rfl <;> decide

theorem isOrnament_of_closes {c : Char} (h : ofTypes.closes c = true) : isOrnament c = true := by
  simp only [ofTypes, Bool.or_eq_true, beq_iff_eq] at h
  rcases h with (rfl | rfl) | rfl <;> decide

/-! ## Cutting -/

theorem substance_intercalate (parts : List (List Char)) :
    substance ([','].intercalate parts) = parts.flatMap substance := by
  induction parts with
  | nil => rfl
  | cons part rest ih =>
      cases rest with
      | nil => rw [List.intercalate_singleton, List.flatMap_singleton]
      | cons next rest =>
          have hcomma : substance [','] = [] := substance_cons_of_isOrnament (by decide) []
          rw [List.intercalate_cons_cons, substance_append, substance_append, hcomma, ih,
            List.append_nil]
          exact List.flatMap_cons.symm

/-- Whatever the depth at which it starts, cutting loses only separators. -/
theorem flatMap_splitFrom (depth : Int) (cs : List Char) :
    (ofTypes.splitFrom ',' depth cs).flatMap substance = substance cs := by
  rw [← substance_intercalate, intercalate_splitFrom]

/-- The arguments of a text hold all of its substance: a part that does not count has none. -/
theorem flatMap_args (inner : List Char) :
    ((ofTypes.split ',' inner).filter fun arg => !arg.isEmpty).flatMap substance =
      substance inner := by
  have hfilter : ∀ parts : List (List Char),
      (parts.filter fun arg => !arg.isEmpty).flatMap substance = parts.flatMap substance := by
    intro parts
    induction parts with
    | nil => rfl
    | cons part rest ih =>
        cases part with
        | nil => simpa [substance] using ih
        | cons c part => simp [ih]
  rw [hfilter, split, List.flatMap_map]
  simp only [substance_trim]
  exact flatMap_splitFrom 0 inner

/-! ## Written forms -/

theorem substance_displayArgs (ts : List TypeExpr) :
    substance (displayArgs ts) = ts.flatMap fun t => substance t.display := by
  induction ts with
  | nil => rfl
  | cons t ts ih =>
      cases ts with
      | nil => simp [displayArgs]
      | cons next rest =>
          rw [displayArgs, substance_append, substance_cons_of_isOrnament (by decide),
            substance_cons_of_isOrnament (by decide), ih]
          rfl

theorem substance_display_application {name : List Char} (hname : isPath name = true)
    (ts : List TypeExpr) :
    substance (display ⟨String.ofList name, ts, false⟩) =
      substance name ++ ts.flatMap fun t => substance t.display := by
  by_cases hne : ts = []
  · rw [hne, display_empty, List.flatMap_nil, List.append_nil]
  · rw [display_application hname hne, substance_append,
      substance_cons_of_isOrnament (by decide), substance_append, substance_displayArgs,
      substance_cons_of_isOrnament (by decide)]
    simp [substance]

theorem substance_display_orNull (t : TypeExpr) :
    substance t.orNull.display = substance t.display := by
  cases h : t.nullable with
  | true => rw [orNull_of_nullable h]
  | false =>
      rw [display_orNull h, substance_append, substance_cons_of_isOrnament (by decide)]
      exact List.append_nil _

/-- Reading a text and writing out the type that it denotes changes only ornaments: nothing else is
lost, added or moved. -/
theorem substance_display_parse (cs : List Char) : substance (parse cs).display = substance cs := by
  induction cs using parseInduction with
  | nullable cs body hbody hparse ih =>
      rw [hparse, substance_display_orNull, ih, ← substance_trim cs,
        (nullableBody?_eq_some_iff.mp hbody).1, substance_append,
        substance_cons_of_isOrnament (by decide)]
      exact (List.append_nil _).symm
  | arrayOf cs body hbody hparse ih =>
      rw [hparse, display_array, ← substance_trim cs, (arrayBody?_eq_some_iff.mp hbody).1,
        substance_append, substance_append, ih]
  | application cs name args happly hparse ih =>
      obtain ⟨front, opener, inner, closer, htext, -, hopener, -, -, hcloses, rfl, hpath, rfl⟩ :=
        application?_eq_some_iff.mp happly
      have hcloser : substance [closer] = [] :=
        substance_cons_of_isOrnament (isOrnament_of_closes hcloses) []
      rw [hparse, substance_display_application hpath, List.flatMap_map,
        List.flatMap_congr ih, flatMap_args, substance_trim, ← substance_trim cs, htext,
        substance_append, substance_cons_of_isOrnament (isOrnament_of_opensArgs hopener),
        substance_append, hcloser, List.append_nil]
  | plain cs hparse => rw [hparse, display_named, substance_trim]

/-! ## The weight of a type -/

mutual

/-- The number of characters in the names of a type, without ornaments. -/
def weight : TypeExpr → Nat
  | ⟨name, args, _⟩ => (substance name.toList).length + weightAll args

/-- The number of characters in the names of several types. -/
def weightAll : List TypeExpr → Nat
  | [] => 0
  | t :: ts => t.weight + weightAll ts

end

theorem weightAll_map_parse {args : List (List Char)}
    (h : ∀ arg ∈ args, (parse arg).weight = (substance arg).length) :
    weightAll (args.map parse) = (args.flatMap substance).length := by
  induction args with
  | nil => rfl
  | cons arg rest ih =>
      obtain ⟨harg, hrest⟩ := List.forall_mem_cons.mp h
      rw [List.map_cons, weightAll, harg, ih hrest, List.flatMap_cons, List.length_append]

theorem weight_orNull (t : TypeExpr) : t.orNull.weight = t.weight := by
  cases t
  simp [orNull, weight]

/-- A type weighs as much as the text it was read from. -/
theorem weight_parse (cs : List Char) : (parse cs).weight = (substance cs).length := by
  induction cs using parseInduction with
  | nullable cs body hbody hparse ih =>
      have hmark : substance ['?'] = [] := substance_cons_of_isOrnament (by decide) []
      rw [hparse, weight_orNull, ih, ← substance_trim cs, (nullableBody?_eq_some_iff.mp hbody).1,
        substance_append, hmark, List.append_nil]
  | arrayOf cs body hbody hparse ih =>
      have hbrackets : substance ['[', ']'] = [] := rfl
      rw [hparse, ← substance_trim cs, (arrayBody?_eq_some_iff.mp hbody).1, substance_append,
        hbrackets, List.append_nil, ← ih]
      simp [array, weight, weightAll, arrayName, hbrackets]
  | application cs name args happly hparse ih =>
      obtain ⟨front, opener, inner, closer, htext, -, hopener, -, -, hcloses, rfl, -, rfl⟩ :=
        application?_eq_some_iff.mp happly
      have hcloser : substance [closer] = [] :=
        substance_cons_of_isOrnament (isOrnament_of_closes hcloses) []
      rw [hparse, weight, weightAll_map_parse ih, flatMap_args, String.toList_ofList,
        substance_trim, ← List.length_append, ← substance_trim cs, htext, substance_append,
        substance_cons_of_isOrnament (isOrnament_of_opensArgs hopener), substance_append, hcloser,
        List.append_nil]
  | plain cs hparse =>
      rw [hparse, named, weight, weightAll, String.toList_ofList, substance_trim, Nat.add_zero]

end Precis.TypeExpr
