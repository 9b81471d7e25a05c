import Precis.Proofs.Types.Stability

/-! # Spellings of types

A well-formed type is made up of names, arguments and arrays. It has many spellings, which differ in
the brackets around arguments and in the white space between the signs. Reading is by suffixes and by
counting brackets, and yet it gives back the type of every spelling. -/

namespace Precis.TypeExpr

open Text Brackets

/-! ## Names -/

/-- A text of letters, digits and the signs `_`, `.`, `:` and `$`. -/
structure IsName (name : List Char) : Prop where
  nonempty : name ≠ []
  chars : ∀ c ∈ name, isAlphanumeric c = true ∨ c ∈ ['_', '.', ':', '$']

theorem isPath_iff {name : List Char} : isPath name = true ↔ IsName name := by
  simp only [isPath, Bool.and_eq_true, Bool.not_eq_true', List.isEmpty_eq_false_iff,
    List.all_eq_true, Bool.or_eq_true, beq_iff_eq]
  constructor
  · rintro ⟨hne, hchars⟩
    exact ⟨hne, fun c hc => by simpa [or_assoc] using hchars c hc⟩
  · rintro ⟨hne, hchars⟩
    exact ⟨hne, fun c hc => by simpa [or_assoc] using hchars c hc⟩

/-- No character lies in ranges that have nothing in common. -/
theorem inRanges_of_disjoint {xs ys : List (Nat × Nat)}
    (h : xs.all (fun x => ys.all fun y => decide (x.2 < y.1) || decide (y.2 < x.1)) = true)
    {c : Char} (hc : inRanges xs c = true) : inRanges ys c = false := by
  by_contra hboth
  rw [Bool.not_eq_false] at hboth
  obtain ⟨x, hx, hcx⟩ := List.any_eq_true.mp hc
  obtain ⟨y, hy, hcy⟩ := List.any_eq_true.mp hboth
  have hapart := List.all_eq_true.mp (List.all_eq_true.mp h x hx) y hy
  simp only [Bool.and_eq_true, Bool.or_eq_true, decide_eq_true_eq] at hcx hcy hapart
  omega

theorem isAlphanumeric_of_isBlank {c : Char} (h : isBlank c = true) : isAlphanumeric c = false :=
  inRanges_of_disjoint (by decide +kernel) h

theorem IsName.tight {name : List Char} (h : IsName name) : Tight name := by
  have hblank : ∀ c ∈ name, isBlank c = false := by
    intro c hc
    by_contra hblank
    rw [Bool.not_eq_false] at hblank
    rcases h.chars c hc with hletter | hsign
    · rw [isAlphanumeric_of_isBlank hblank] at hletter
      cases hletter
    · simp only [List.mem_cons, List.not_mem_nil, or_false] at hsign
      rcases hsign with rfl | rfl | rfl | rfl <;> exact absurd hblank (by decide)
  constructor
  · obtain ⟨c, rest, rfl⟩ := List.exists_cons_of_ne_nil h.nonempty
    exact ⟨c, rest, rfl, hblank c List.mem_cons_self⟩
  · obtain ⟨front, c, rfl⟩ := (List.eq_nil_or_concat' name).resolve_left h.nonempty
    exact ⟨front, c, rfl, hblank c (by simp)⟩

/-! ## Well-formed types and their spellings -/

/-- A type that is a name with arguments, if any, or an array, at every level. -/
inductive WellFormed : TypeExpr → Prop where
  | application {name : List Char} {args : List TypeExpr} {nullable : Bool} (hname : IsName name)
      (hargs : ∀ arg ∈ args, WellFormed arg) : WellFormed ⟨String.ofList name, args, nullable⟩
  | array {element : TypeExpr} {nullable : Bool} (h : WellFormed element) :
      WellFormed ⟨arrayName, [element], nullable⟩

/-- The spellings of a type. Arguments, each with its spelling, stand between commas in angle or in
square brackets. White space may stand around a whole type, and so before and after names, commas,
brackets and suffixes, but not between the two brackets of an array. -/
inductive Spelled : TypeExpr → List Char → Prop where
  | name {name : List Char} (hname : IsName name) :
      Spelled ⟨String.ofList name, [], false⟩ name
  | application {name gap : List Char} {opener closer : Char}
      {args : List (TypeExpr × List Char)} (hname : IsName name) (hgap : allBlank gap = true)
      (hbrackets : (opener, closer) ∈ [('<', '>'), ('[', ']')]) (hne : args ≠ [])
      (hargs : ∀ arg ∈ args, Spelled arg.1 arg.2) :
      Spelled ⟨String.ofList name, args.map Prod.fst, false⟩
        (name ++ (gap ++ opener :: ([','].intercalate (args.map Prod.snd) ++ [closer])))
  | array {element : TypeExpr} {cs : List Char} (h : Spelled element cs) :
      Spelled ⟨arrayName, [element], false⟩ (cs ++ ['[', ']'])
  | nullable {name : String} {args : List TypeExpr} {cs : List Char}
      (h : Spelled ⟨name, args, false⟩ cs) : Spelled ⟨name, args, true⟩ (cs ++ ['?'])
  | blanks {t : TypeExpr} {before cs after : List Char} (hbefore : allBlank before = true)
      (h : Spelled t cs) (hafter : allBlank after = true) : Spelled t (before ++ (cs ++ after))

/-! ## The written form -/

/-- A mark is the last sign of a spelling. -/
theorem spelled_display_of_plain {name : String} {args : List TypeExpr}
    (h : Spelled ⟨name, args, false⟩ (display ⟨name, args, false⟩)) (nullable : Bool) :
    Spelled ⟨name, args, nullable⟩ (display ⟨name, args, nullable⟩) := by
  cases nullable with
  | false => exact h
  | true =>
      have hdisplay := @display_orNull ⟨name, args, false⟩ rfl
      rw [orNull] at hdisplay
      rw [hdisplay]
      exact .nullable h

/-- The written form of a well-formed type is one of its spellings. -/
theorem WellFormed.spelled_display {t : TypeExpr} (h : WellFormed t) : Spelled t t.display := by
  induction h with
  | @application name args nullable hname hargs ih =>
      apply spelled_display_of_plain
      cases args with
      | nil =>
          rw [display_empty]
          exact .name hname
      | cons first rest =>
          obtain ⟨hfirst, hrest⟩ := List.forall_mem_cons.mp ih
          -- The space behind each comma belongs to the argument after it.
          have hspelled : ∀ arg ∈ (first, first.display) ::
              rest.map (fun u => (u, [' '] ++ (u.display ++ []))), Spelled arg.1 arg.2 :=
            List.forall_mem_cons.mpr ⟨hfirst,
              List.forall_mem_map.mpr fun u hu => .blanks rfl (hrest u hu) rfl⟩
          have happly := @Spelled.application name [] '<' '>' _ hname rfl (by simp)
            (List.cons_ne_nil _ _) hspelled
          rw [display_application (isPath_iff.mpr hname) (List.cons_ne_nil _ _), displayArgs_cons]
          simpa [Function.comp_def] using happly
  | @array element nullable h ih =>
      apply spelled_display_of_plain
      rw [show display ⟨arrayName, [element], false⟩ = _ from display_array element]
      exact .array ih

/-! ## The brackets of a spelling -/

theorem Spelled.allBlank_eq {t : TypeExpr} {cs : List Char} (h : Spelled t cs) :
    allBlank cs = false := by
  have hleft {xs : List Char} (h : allBlank xs = false) (ys : List Char) :
      allBlank (xs ++ ys) = false := by
    rw [allBlank, List.all_append, ← allBlank, h, Bool.false_and]
  induction h with
  | name hname => exact hname.tight.allBlank_eq
  | application hname => exact hleft hname.tight.allBlank_eq _
  | array _ ih => exact hleft ih _
  | nullable _ ih => exact hleft ih _
  | blanks hbefore _ _ ih =>
      rw [allBlank, List.all_append, ← allBlank, ← allBlank, hleft ih, Bool.and_false]

/-- The brackets of a spelling balance, and no comma stands outside them. -/
theorem Spelled.solid {t : TypeExpr} {cs : List Char} (h : Spelled t cs) :
    ofTypes.Solid (· == ',') 0 cs := by
  have hcomma : ∀ c : Char, (c == ',') = true → c = ',' := fun c => beq_iff_eq.mp
  have hplain {name : List Char} (hname : IsName name) :
      ∀ c ∈ name, ofTypes.IsPlain (· == ',') c :=
    fun c hc => isPlain_of_mem_path (isPath_iff.mpr hname) hc hcomma
  have hblank {gap : List Char} (hgap : allBlank gap = true) :
      ∀ c ∈ gap, ofTypes.IsPlain (· == ',') c :=
    fun c hc => isPlain_of_isBlank (List.all_eq_true.mp hgap c hc) hcomma
  induction h with
  | name hname => exact solid_of_plain (hplain hname)
  | @application name gap opener closer args hname hgap hbrackets hne hargs ih =>
      have hinner : ofTypes.Closing 0 ([','].intercalate (args.map Prod.snd)) :=
        closing_intercalate rfl rfl (List.forall_mem_map.mpr fun arg harg => (ih arg harg).closing)
      rw [solid_plain_append_iff (hplain hname), solid_plain_append_iff (hblank hgap)]
      simp only [List.mem_cons, Prod.mk.injEq, List.not_mem_nil, or_false] at hbrackets
      rcases hbrackets with ⟨rfl, rfl⟩ | ⟨rfl, rfl⟩
      · exact .opener rfl (Solid.inside hinner (.closer rfl rfl .nil))
      · exact .opener rfl (Solid.inside hinner (.closer rfl rfl .nil))
  | array _ ih => exact ih.append (.opener rfl (.closer rfl rfl .nil))
  | nullable _ ih => exact ih.append (.other rfl rfl (by decide) .nil)
  | blanks hbefore _ hafter ih =>
      rw [solid_plain_append_iff (hblank hbefore)]
      exact ih.append (solid_of_plain (hblank hafter))

/-! ## Reading a spelling -/

/-- Cutting the spelling of arguments at its commas gives a spelling of each. -/
theorem parse_split_spelled {args : List (TypeExpr × List Char)} (hne : args ≠ [])
    (hargs : ∀ arg ∈ args, Spelled arg.1 arg.2)
    (hparse : ∀ arg ∈ args, parse arg.2 = arg.1) :
    ((ofTypes.split ',' ([','].intercalate (args.map Prod.snd))).filter
      fun arg => !arg.isEmpty).map parse = args.map Prod.fst := by
  have hsolid : ∀ text ∈ args.map Prod.snd, ofTypes.Solid (· == ',') 0 text :=
    List.forall_mem_map.mpr fun arg harg => (hargs arg harg).solid
  rw [split_intercalate rfl rfl (by simpa using hne) hsolid, List.map_map, List.filter_eq_self.mpr]
  · rw [List.map_map]
    refine List.map_congr_left fun arg harg => ?_
    exact (parse_trim arg.2).trans (hparse arg harg)
  · refine List.forall_mem_map.mpr fun arg harg => ?_
    have hne : trim arg.2 ≠ [] := (tight_trim (hargs arg harg).allBlank_eq).ne_nil
    simpa using hne

/-- Every spelling of a type is read as that type. -/
theorem Spelled.parse_eq {t : TypeExpr} {cs : List Char} (h : Spelled t cs) : parse cs = t := by
  induction h with
  | name hname => exact parse_path (isPath_iff.mpr hname) hname.tight
  | @application name gap opener closer args hname hgap hbrackets hne hargs ih =>
      have hsigns : opensArgs opener = true ∧ ofTypes.opens closer = false ∧
          ofTypes.closes closer = true := by
        simp only [List.mem_cons, Prod.mk.injEq, List.not_mem_nil, or_false] at hbrackets
        rcases hbrackets with ⟨rfl, rfl⟩ | ⟨rfl, rfl⟩ <;> decide
      obtain ⟨hopener, hopens, hcloses⟩ := hsigns
      have hread := parse_split_spelled hne hargs ih
      have hinner : [','].intercalate (args.map Prod.snd) ≠ [] := by
        intro hnil
        rw [hnil] at hread
        exact hne (List.map_eq_nil_iff.mp hread.symm)
      have hclosing : ofTypes.Closing 0 ([','].intercalate (args.map Prod.snd)) :=
        closing_intercalate rfl rfl
          (List.forall_mem_map.mpr fun arg harg => (hargs arg harg).solid.closing)
      rw [parse_bracketed (isPath_iff.mpr hname) hname.tight hgap hopener hopens hcloses hinner
        hclosing, hread]
  | array h ih =>
      rw [parse_array h.allBlank_eq h.solid.closing, ih]
      rfl
  | nullable h ih =>
      rw [parse_orNull h.allBlank_eq, ih]
      rfl
  | blanks hbefore _ hafter ih =>
      rw [← parse_trim, trim_between hbefore hafter, parse_trim, ih]

/-- Every spelling of a well-formed type is read as that type, whichever brackets and whatever white
space it has; in particular its written form is. -/
theorem parse_spelled {t : TypeExpr} (h : WellFormed t) :
    (∀ cs, Spelled t cs → parse cs = t) ∧ Spelled t t.display ∧ parse t.display = t :=
  ⟨fun _ hspelled => hspelled.parse_eq, h.spelled_display, h.spelled_display.parse_eq⟩

/-! ## A specimen -/

/-- A map that may be null, from `a.B` to arrays of integers that may be null. -/
def mapType : TypeExpr :=
  ⟨"Map", [⟨"a.B", [], false⟩, ⟨arrayName, [⟨"int", [], true⟩], false⟩], true⟩

theorem isName_specimen : ∀ name ∈ ["Map".toList, "a.B".toList, "int".toList], IsName name := by
  intro name hname
  apply isPath_iff.mp
  simp only [List.mem_cons, List.not_mem_nil, or_false] at hname
  rcases hname with rfl | rfl | rfl <;> decide +kernel

theorem wellFormed_mapType : WellFormed mapType := by
  have hint : WellFormed ⟨"int", [], true⟩ :=
    .application (isName_specimen "int".toList (by simp)) (List.forall_mem_nil _)
  have hname : WellFormed ⟨"a.B", [], false⟩ :=
    .application (isName_specimen "a.B".toList (by simp)) (List.forall_mem_nil _)
  refine .application (isName_specimen "Map".toList (by simp)) ?_
  simpa using And.intro hname hint.array

theorem spelled_mapType : Spelled mapType "Map [ a.B ,int ? []\t] ?".toList := by
  have hname : Spelled ⟨"a.B", [], false⟩ " a.B ".toList :=
    .blanks (rfl : allBlank [' '] = true) (.name (isName_specimen "a.B".toList (by simp)))
      (rfl : allBlank [' '] = true)
  have hint : Spelled ⟨"int", [], false⟩ "int ".toList :=
    .blanks (rfl : allBlank [] = true) (.name (isName_specimen "int".toList (by simp)))
      (rfl : allBlank [' '] = true)
  have hspace : Spelled ⟨"int", [], true⟩ "int ? ".toList :=
    .blanks (rfl : allBlank [] = true) hint.nullable (rfl : allBlank [' '] = true)
  have harray : Spelled ⟨arrayName, [⟨"int", [], true⟩], false⟩ "int ? []\t".toList :=
    .blanks (rfl : allBlank [] = true) hspace.array (rfl : allBlank ['\t'] = true)
  have hmap : Spelled ⟨"Map", [⟨"a.B", [], false⟩, ⟨arrayName, [⟨"int", [], true⟩], false⟩], false⟩
      "Map [ a.B ,int ? []\t]".toList :=
    .application (isName_specimen "Map".toList (by simp)) (rfl : allBlank [' '] = true)
      (by simp : ('[', ']') ∈ [('<', '>'), ('[', ']')])
      (List.cons_ne_nil (_, " a.B ".toList) [(_, "int ? []\t".toList)])
      (List.forall_mem_cons.mpr ⟨hname, List.forall_mem_singleton.mpr harray⟩)
  have hmapSpace : Spelled _ "Map [ a.B ,int ? []\t] ".toList :=
    .blanks (rfl : allBlank [] = true) hmap (rfl : allBlank [' '] = true)
  exact hmapSpace.nullable

/-- White space around every sign and square brackets around the arguments. -/
theorem parse_spelled_mapType :
    WellFormed mapType ∧ parse "Map [ a.B ,int ? []\t] ?".toList = mapType ∧
      parse "Map<a.B, int?[]>?".toList = mapType := by
  obtain ⟨hspelled, -, hdisplay⟩ := parse_spelled wellFormed_mapType
  exact ⟨wellFormed_mapType, hspelled _ spelled_mapType, hdisplay⟩

end Precis.TypeExpr
