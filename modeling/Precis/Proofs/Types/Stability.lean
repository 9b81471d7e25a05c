import Precis.Proofs.Types.Brackets
import Precis.TypeExpr.Parse

/-! # Written types are read back as they are

Reading a text normalises its spelling: blanks, empty arguments, repeated marks and the kind of
brackets are lost. The written form of what was read has none of these liberties left, so that
reading it again takes the same form at every level. -/

namespace Precis.TypeExpr

open Text Brackets

/-! ## The forms of a text -/

theorem nullableBody?_eq_some_iff {cs body : List Char} :
    nullableBody? cs = some body ↔ cs = body ++ ['?'] ∧ allBlank body = false := by
  rw [nullableBody?, Option.filter_eq_some_iff, dropSuffix?_eq_some_iff, Bool.not_eq_true']

theorem arrayBody?_eq_some_iff {cs body : List Char} :
    arrayBody? cs = some body ↔
      cs = body ++ ['[', ']'] ∧ allBlank body = false ∧ ofTypes.Closing 0 body := by
  rw [arrayBody?, Option.filter_eq_some_iff, dropSuffix?_eq_some_iff, Bool.and_eq_true,
    Bool.not_eq_true', balanced, balancedFrom_iff]

/-- A text is an application if it is a name, an opening bracket, a balanced text and a closing
bracket. -/
theorem application?_eq_some_iff {cs name : List Char} {args : List (List Char)} :
    application? cs = some (name, args) ↔
      ∃ front opener inner closer, cs = front ++ opener :: (inner ++ [closer]) ∧
        (∀ c ∈ front, opensArgs c = false) ∧ opensArgs opener = true ∧
        ofTypes.Closing 0 inner ∧ ofTypes.opens closer = false ∧ ofTypes.closes closer = true ∧
        name = trim front ∧ isPath name = true ∧
        args = (ofTypes.split ',' inner).filter fun arg => !arg.isEmpty := by
  constructor
  · intro h
    have hcs := List.takeWhile_append_dropWhile (p := fun c => !opensArgs c) (l := cs)
    unfold application? at h
    dsimp only at h
    split at h
    · cases h
    · rename_i opener rest hrest
      split_ifs at h with hform
      obtain ⟨hpath, hcloses⟩ := Bool.and_eq_true_iff.mp hform
      obtain ⟨inner, closer, rfl, hinner, hcloser⟩ := closesAtEnd_iff.mp hcloses
      simp only [Option.some.injEq, Prod.mk.injEq, List.dropLast_concat] at h
      obtain ⟨rfl, rfl⟩ := h
      have hopener : opensArgs opener = true := by
        have hhead := List.head_dropWhile_not (fun c => !opensArgs c) (hrest ▸ List.cons_ne_nil _ _)
        simpa [hrest] using hhead
      refine ⟨_, opener, inner, closer, by rw [← hrest, hcs], ?_, hopener, hinner, hcloser.1,
        hcloser.2, rfl, hpath, rfl⟩
      intro c hc
      simpa using List.mem_takeWhile_imp hc
  · rintro ⟨front, opener, inner, closer, rfl, hfront, hopener, hinner, hopens, hcloses, rfl,
      hpath, rfl⟩
    have hpos : ∀ c ∈ front, (!opensArgs c) = true := by
      intro c hc
      rw [hfront c hc]
      rfl
    have htake : (front ++ opener :: (inner ++ [closer])).takeWhile (fun c => !opensArgs c) =
        front := by
      rw [List.takeWhile_append_of_pos hpos, List.takeWhile_cons_of_neg (by simp [hopener]),
        List.append_nil]
    have hdrop : (front ++ opener :: (inner ++ [closer])).dropWhile (fun c => !opensArgs c) =
        opener :: (inner ++ [closer]) := by
      rw [List.dropWhile_append_of_pos hpos, List.dropWhile_cons_of_neg (by simp [hopener])]
    have hend : ofTypes.closesAtEnd 0 (inner ++ [closer]) = true :=
      closesAtEnd_iff.mpr ⟨inner, closer, rfl, hinner, hopens, hcloses⟩
    unfold application?
    dsimp only
    rw [htake, hdrop]
    simp [hpath, hend]

/-- Reading follows the form of a text: a type that may be null, an array, an application, or a
name as it stands. -/
@[elab_as_elim]
theorem parseInduction {motive : List Char → Prop}
    (nullable : ∀ cs body, nullableBody? (trim cs) = some body →
      parse cs = (parse body).orNull → motive body → motive cs)
    (arrayOf : ∀ cs body, arrayBody? (trim cs) = some body →
      parse cs = array (parse body) → motive body → motive cs)
    (application : ∀ cs name args, application? (trim cs) = some (name, args) →
      parse cs = ⟨String.ofList name, args.map parse, false⟩ →
      (∀ arg ∈ args, motive arg) → motive cs)
    (plain : ∀ cs, parse cs = named (trim cs) → motive cs) (cs : List Char) : motive cs := by
  induction h : cs.length using Nat.strongRecOn generalizing cs with
  | ind n ih =>
      have hlength := length_trim_le cs
      have hparse := parse_eq cs
      cases hnullable : nullableBody? (trim cs) with
      | some body =>
          rw [hnullable] at hparse
          have := length_lt_of_nullableBody? hnullable
          exact nullable cs body hnullable hparse (ih _ (by omega) body rfl)
      | none =>
          rw [hnullable] at hparse
          cases harray : arrayBody? (trim cs) with
          | some body =>
              rw [harray] at hparse
              have := length_lt_of_arrayBody? harray
              exact arrayOf cs body harray hparse (ih _ (by omega) body rfl)
          | none =>
              rw [harray] at hparse
              cases happly : application? (trim cs) with
              | some found =>
                  rw [happly] at hparse
                  refine application cs found.1 found.2 happly hparse ?_
                  intro arg harg
                  have := length_lt_of_application? happly arg harg
                  exact ih _ (by omega) arg rfl
              | none =>
                  rw [happly] at hparse
                  exact plain cs hparse

/-! ## Characters of names -/

theorem isPlain_of_isBlank {c : Char} (h : isBlank c = true) {cuts : Char → Bool}
    (hcuts : ∀ c, cuts c = true → c = ',') : ofTypes.IsPlain cuts c := by
  constructor
  · by_contra hopens
    simp only [ofTypes, Bool.not_eq_false, Bool.or_eq_true, beq_iff_eq] at hopens
    rcases hopens with (rfl | rfl) | rfl <;> exact absurd h (by decide)
  · by_contra hcloses
    simp only [ofTypes, Bool.not_eq_false, Bool.or_eq_true, beq_iff_eq] at hcloses
    rcases hcloses with (rfl | rfl) | rfl <;> exact absurd h (by decide)
  · by_contra hcut
    obtain rfl := hcuts c (by simpa using hcut)
    exact absurd h (by decide)

/-- The signs that give a spelling its form. -/
def isSign (c : Char) : Bool :=
  c == '?' || c == ',' || ofTypes.opens c || ofTypes.closes c

theorem isAlphanumeric_of_isSign {c : Char} (h : isSign c = true) : isAlphanumeric c = false := by
  simp only [isSign, ofTypes, Bool.or_eq_true, beq_iff_eq] at h
  rcases h with ((rfl | rfl) | (rfl | rfl) | rfl) | (rfl | rfl) | rfl <;> decide +kernel

/-- No sign occurs in a name that can be given arguments. -/
theorem isSign_of_mem_path {cs : List Char} (h : isPath cs = true) {c : Char} (hc : c ∈ cs) :
    isSign c = false := by
  by_contra hsign
  rw [Bool.not_eq_false] at hsign
  have hname := List.all_eq_true.mp (Bool.and_eq_true_iff.mp h).2 c hc
  rw [isAlphanumeric_of_isSign hsign] at hname
  simp only [Bool.false_or, Bool.or_eq_true, beq_iff_eq] at hname
  rcases hname with ((rfl | rfl) | rfl) | rfl <;> cases hsign

theorem isPlain_of_mem_path {cs : List Char} (h : isPath cs = true) {c : Char} (hc : c ∈ cs)
    {cuts : Char → Bool} (hcuts : ∀ c, cuts c = true → c = ',') : ofTypes.IsPlain cuts c := by
  have hsign := isSign_of_mem_path h hc
  simp only [isSign, Bool.or_eq_false_iff, beq_eq_false_iff_ne] at hsign
  refine ⟨hsign.1.2, hsign.2, ?_⟩
  by_contra hcut
  exact hsign.1.1.2 (hcuts c (by simpa using hcut))

/-- What opens an argument list is a bracket. -/
theorem opensArgs_of_opens {c : Char} (h : ofTypes.opens c = false) : opensArgs c = false := by
  simp only [ofTypes, Bool.or_eq_false_iff] at h
  rw [opensArgs, h.1.1, h.1.2]
  rfl

/-- Trimming a solid text leaves a solid text. -/
theorem solid_trim {cuts : Char → Bool} (hcuts : ∀ c, cuts c = true → c = ',') {depth : Nat}
    {cs : List Char} (h : ofTypes.Solid cuts depth cs) : ofTypes.Solid cuts depth (trim cs) := by
  obtain ⟨before, after, hcs, hbefore, hafter⟩ := trim_spec cs
  rw [hcs, solid_plain_append_iff fun c hc => isPlain_of_isBlank (hbefore c hc) hcuts] at h
  exact h.of_append_plain fun c hc => isPlain_of_isBlank (hafter c hc) hcuts

theorem solid_of_mem_split {inner part : List Char} (h : ofTypes.Closing 0 inner)
    (hpart : part ∈ ofTypes.split ',' inner) : ofTypes.Solid (· == ',') 0 part := by
  obtain ⟨raw, hraw, rfl⟩ := List.mem_map.mp hpart
  obtain ⟨first, rest, hsplit, hfirst, hrest⟩ := @Solid.parts ofTypes ',' 0 inner h
  apply solid_trim fun c => beq_iff_eq.mp
  rw [show ofTypes.splitFrom ',' 0 inner = first :: rest from hsplit] at hraw
  rcases List.mem_cons.mp hraw with rfl | hraw
  · exact hfirst
  · exact hrest raw hraw

/-! ## Written forms -/

theorem display_named (cs : List Char) : (named cs).display = cs := by
  simp [named, display]

theorem display_array (t : TypeExpr) : (array t).display = t.display ++ ['[', ']'] := by
  simp [array, display, displayArgs]

theorem orNull_of_nullable {t : TypeExpr} (h : t.nullable = true) : t.orNull = t := by
  cases t
  simp_all [orNull]

theorem display_orNull {t : TypeExpr} (h : t.nullable = false) :
    t.orNull.display = t.display ++ ['?'] := by
  cases t
  simp_all [orNull, display]

theorem display_empty (name : List Char) :
    display ⟨String.ofList name, [], false⟩ = name := by
  simp [display]

theorem display_application {name : List Char} {args : List TypeExpr} (hname : isPath name = true)
    (hargs : args ≠ []) :
    display ⟨String.ofList name, args, false⟩ = name ++ '<' :: (displayArgs args ++ ['>']) := by
  have harray : String.ofList name ≠ arrayName := by
    intro h
    have hchars : name = ['[', ']'] := by simpa [arrayName] using congrArg String.toList h
    rw [hchars] at hname
    exact absurd (isSign_of_mem_path hname List.mem_cons_self) (by decide)
  simp [display, harray, hargs]

/-- Written arguments stand between commas, all but the first behind a space. -/
theorem displayArgs_cons (t : TypeExpr) (ts : List TypeExpr) :
    displayArgs (t :: ts) = [','].intercalate (t.display :: ts.map fun u => ' ' :: u.display) := by
  induction ts generalizing t with
  | nil => rw [displayArgs, List.map_nil, List.intercalate_singleton]
  | cons next rest ih =>
      rw [displayArgs, List.map_cons, List.intercalate_cons_cons, List.append_assoc,
        List.singleton_append, ih next]
      cases rest with
      | nil => rfl
      | cons last rest => rw [List.map_cons, List.intercalate_cons_cons, List.intercalate_cons_cons]; rfl

theorem solid_space {cuts : Char → Bool} (hcuts : ∀ c, cuts c = true → c = ',') {cs : List Char}
    (h : ofTypes.Solid cuts 0 cs) : ofTypes.Solid cuts 0 (' ' :: cs) :=
  (isPlain_of_isBlank (by decide) hcuts).solid_cons_iff.mpr h

theorem closing_displayArgs {ts : List TypeExpr} (h : ∀ t ∈ ts, ofTypes.Closing 0 t.display) :
    ofTypes.Closing 0 (displayArgs ts) := by
  cases ts with
  | nil => exact .nil
  | cons t ts =>
      obtain ⟨ht, hts⟩ := List.forall_mem_cons.mp h
      rw [displayArgs_cons]
      refine closing_intercalate rfl rfl (List.forall_mem_cons.mpr ⟨ht, ?_⟩)
      exact List.forall_mem_map.mpr fun u hu => solid_space (by simp) (hts u hu)

/-- Cutting the written arguments at their commas gives back each of them. -/
theorem split_displayArgs {ts : List TypeExpr} (hne : ts ≠ [])
    (hsolid : ∀ t ∈ ts, ofTypes.Solid (· == ',') 0 t.display)
    (htight : ∀ t ∈ ts, Tight t.display) :
    ofTypes.split ',' (displayArgs ts) = ts.map display := by
  cases ts with
  | nil => exact absurd rfl hne
  | cons t ts =>
      obtain ⟨ht, hts⟩ := List.forall_mem_cons.mp hsolid
      obtain ⟨htrim, htrims⟩ := List.forall_mem_cons.mp htight
      rw [displayArgs_cons, split_intercalate rfl rfl (List.cons_ne_nil _ _), List.map_cons,
        htrim.trim_eq, List.map_map, List.map_cons]
      · congr 1
        refine List.map_congr_left fun u hu => ?_
        have hspace : trim ([' '] ++ (u.display ++ [])) = u.display := by
          rw [trim_between rfl rfl, (htrims u hu).trim_eq]
        simpa using hspace
      · refine List.forall_mem_cons.mpr ⟨ht, ?_⟩
        exact List.forall_mem_map.mpr fun u hu => solid_space (fun c => beq_iff_eq.mp) (hts u hu)

/-! ## What is read of a text, written out -/

theorem tight_trim_of_isPath {cs : List Char} (h : isPath (trim cs) = true) : Tight (trim cs) := by
  apply tight_trim
  by_contra hblank
  rw [trim_eq_nil_iff.mpr (by simpa using hblank)] at h
  cases h

/-- An argument that counts is not blank. -/
theorem allBlank_of_mem_args {inner arg : List Char}
    (h : arg ∈ (ofTypes.split ',' inner).filter fun arg => !arg.isEmpty) :
    allBlank arg = false := by
  obtain ⟨hsplit, hne⟩ := List.mem_filter.mp h
  obtain ⟨raw, -, rfl⟩ := List.mem_map.mp hsplit
  by_contra hblank
  have hnil := trim_eq_nil_iff.mpr (by simpa using hblank)
  rw [trim_trim] at hnil
  simp [hnil] at hne

theorem tight_display_parse {cs : List Char} (h : allBlank cs = false) :
    Tight (parse cs).display := by
  induction cs using parseInduction with
  | nullable cs body hbody hparse ih =>
      have hbody := ih (nullableBody?_eq_some_iff.mp hbody).2
      rw [hparse]
      cases hnullable : (parse body).nullable with
      | true => rwa [orNull_of_nullable hnullable]
      | false =>
          rw [display_orNull hnullable]
          exact hbody.append [] (by decide)
  | arrayOf cs body hbody hparse ih =>
      rw [hparse, display_array]
      exact (ih (arrayBody?_eq_some_iff.mp hbody).2.1).append ['['] (by decide)
  | application cs name args happly hparse ih =>
      obtain ⟨front, _, _, _, -, -, -, -, -, -, rfl, hpath, -⟩ :=
        application?_eq_some_iff.mp happly
      have hname := tight_trim_of_isPath hpath
      rw [hparse]
      by_cases hargs : args.map parse = []
      · rwa [hargs, display_empty]
      · rw [display_application hpath hargs, ← List.cons_append]
        exact hname.append _ (by decide)
  | plain cs hparse =>
      rw [hparse, display_named]
      exact tight_trim h

/-- The written form of what was read of a solid text is solid. -/
theorem solid_display_parse {cuts : Char → Bool} (hcuts : ∀ c, cuts c = true → c = ',')
    {cs : List Char} (h : ofTypes.Solid cuts 0 cs) : ofTypes.Solid cuts 0 (parse cs).display := by
  have hmark : ofTypes.IsPlain cuts '?' := by
    refine ⟨rfl, rfl, ?_⟩
    by_contra hcut
    exact absurd (hcuts '?' (by simpa using hcut)) (by decide)
  induction cs using parseInduction generalizing cuts with
  | nullable cs body hbody hparse ih =>
      have htrim := solid_trim hcuts h
      rw [(nullableBody?_eq_some_iff.mp hbody).1] at htrim
      have hbody := ih hcuts (htrim.of_append_plain (by simpa using hmark)) hmark
      rw [hparse]
      cases hnullable : (parse body).nullable with
      | true => rwa [orNull_of_nullable hnullable]
      | false =>
          rw [display_orNull hnullable]
          exact hbody.append (solid_of_plain (by simpa using hmark))
  | arrayOf cs body hbody hparse ih =>
      obtain ⟨htext, -, hclosing⟩ := arrayBody?_eq_some_iff.mp hbody
      have htrim := solid_trim hcuts h
      rw [htext] at htrim
      rw [hparse, display_array]
      exact (ih hcuts (htrim.of_append hclosing) hmark).append
        (.opener rfl (.closer rfl rfl .nil))
  | application cs name args happly hparse ih =>
      obtain ⟨_, _, inner, _, -, -, -, hinner, -, -, -, hpath, rfl⟩ :=
        application?_eq_some_iff.mp happly
      have hname : ∀ c ∈ name, ofTypes.IsPlain cuts c :=
        fun c hc => isPlain_of_mem_path hpath hc hcuts
      rw [hparse]
      by_cases hargs : ((ofTypes.split ',' inner).filter fun arg => !arg.isEmpty).map parse = []
      · rw [hargs, display_empty]
        exact solid_of_plain hname
      · rw [display_application hpath hargs, solid_plain_append_iff hname]
        refine .opener rfl (Solid.inside (closing_displayArgs ?_) (.closer rfl rfl .nil))
        intro t ht
        obtain ⟨arg, harg, rfl⟩ := List.mem_map.mp ht
        have hsolid := solid_of_mem_split hinner (List.mem_filter.mp harg).1
        exact ih arg harg (by simp) hsolid.closing ⟨rfl, rfl, rfl⟩
  | plain cs hparse =>
      rw [hparse, display_named]
      exact solid_trim hcuts h

/-! ## Reading the written form -/

theorem parse_trim (cs : List Char) : parse (trim cs) = parse cs := by
  rw [parse_eq, parse_eq cs, trim_trim]

theorem parse_trimStart (cs : List Char) : parse (trimStart cs) = parse cs := by
  rw [← parse_trim, trim_trimStart, parse_trim]

/-- Whatever is spelled before it, a mark at the end makes a type that may be null. -/
theorem parse_orNull {cs : List Char} (h : allBlank cs = false) :
    parse (cs ++ ['?']) = (parse cs).orNull := by
  have htext : trim (cs ++ ['?']) = trimStart cs ++ ['?'] := trim_append_of_last h [] (by decide)
  rw [parse_eq, htext, nullableBody?_eq_some_iff.mpr ⟨rfl, allBlank_trimStart h⟩]
  exact congrArg orNull (parse_trimStart cs)

theorem parse_append_mark {cs : List Char} (h : Tight cs) :
    parse (cs ++ ['?']) = (parse cs).orNull :=
  parse_orNull h.allBlank_eq

/-- A text that ends otherwise has no mark for null. -/
theorem nullableBody?_append {cs : List Char} {c : Char} (hc : c ≠ '?') :
    nullableBody? (cs ++ [c]) = none := by
  by_contra h
  obtain ⟨body, hbody⟩ := Option.ne_none_iff_exists'.mp h
  obtain ⟨htext, -⟩ := nullableBody?_eq_some_iff.mp hbody
  exact hc (List.append_inj_right' htext rfl |> List.singleton_inj.mp)

theorem arrayBody?_append {cs : List Char} {c : Char} (hc : c ≠ ']') :
    arrayBody? (cs ++ [c]) = none := by
  by_contra h
  obtain ⟨body, hbody⟩ := Option.ne_none_iff_exists'.mp h
  obtain ⟨htext, -⟩ := arrayBody?_eq_some_iff.mp hbody
  rw [show body ++ ['[', ']'] = (body ++ ['[']) ++ [']'] by simp] at htext
  exact hc (List.append_inj_right' htext rfl |> List.singleton_inj.mp)

/-- A pair of square brackets behind a balanced text makes an array. -/
theorem parse_array {cs : List Char} (h : allBlank cs = false)
    (hclosing : ofTypes.Closing 0 cs) : parse (cs ++ ['[', ']']) = array (parse cs) := by
  have htext : trim (cs ++ ['[', ']']) = trimStart cs ++ ['[', ']'] :=
    trim_append_of_last h ['['] (by decide)
  have hnullable : nullableBody? (trimStart cs ++ ['[', ']']) = none := by
    rw [show trimStart cs ++ ['[', ']'] = (trimStart cs ++ ['[']) ++ [']'] by simp]
    exact nullableBody?_append (by decide)
  have hstart : ofTypes.Closing 0 (trimStart cs) := by
    rw [← List.takeWhile_append_dropWhile (p := isBlank) (l := cs)] at hclosing
    refine (solid_plain_append_iff fun c hc => ?_).mp hclosing
    exact isPlain_of_isBlank (List.mem_takeWhile_imp hc) (by simp)
  rw [parse_eq, htext, hnullable,
    arrayBody?_eq_some_iff.mpr ⟨rfl, allBlank_trimStart h, hstart⟩]
  exact congrArg array (parse_trimStart cs)

theorem parse_append_array {cs : List Char} (h : Tight cs) (hclosing : ofTypes.Closing 0 cs) :
    parse (cs ++ ['[', ']']) = array (parse cs) :=
  parse_array h.allBlank_eq hclosing

/-- A name without signs is read as it stands. -/
theorem parse_path {name : List Char} (hpath : isPath name = true) (htight : Tight name) :
    parse name = ⟨String.ofList name, [], false⟩ := by
  obtain ⟨front, c, hname, -⟩ := htight.last
  have hsign : isSign c = false := isSign_of_mem_path hpath (by simp [hname])
  have hnullable : nullableBody? name = none := by
    rw [hname]
    apply nullableBody?_append
    rintro rfl
    cases hsign
  have harray : arrayBody? name = none := by
    rw [hname]
    apply arrayBody?_append
    rintro rfl
    cases hsign
  have happly : application? name = none := by
    by_contra h
    obtain ⟨⟨found, args⟩, hfound⟩ := Option.ne_none_iff_exists'.mp h
    obtain ⟨_, opener, _, _, htext, -, hopener, -⟩ := application?_eq_some_iff.mp hfound
    have hsign : isSign opener = false := isSign_of_mem_path hpath (by simp [htext])
    simp only [opensArgs, Bool.or_eq_true, beq_iff_eq] at hopener
    rcases hopener with rfl | rfl <;> cases hsign
  rw [parse_eq, htight.trim_eq, hnullable, harray, happly]
  rfl

/-- A name and a bracketed list that is not empty are read as the name with what is read of the
parts of the list. White space may stand behind the name. -/
theorem parse_bracketed {name gap inner : List Char} {opener closer : Char}
    (hpath : isPath name = true) (htight : Tight name) (hgap : allBlank gap = true)
    (hopener : opensArgs opener = true) (hopens : ofTypes.opens closer = false)
    (hcloses : ofTypes.closes closer = true) (hne : inner ≠ [])
    (hinner : ofTypes.Closing 0 inner) :
    parse (name ++ (gap ++ opener :: (inner ++ [closer]))) =
      ⟨String.ofList name,
        ((ofTypes.split ',' inner).filter fun arg => !arg.isEmpty).map parse, false⟩ := by
  have hcloser : closer = '>' ∨ closer = ']' ∨ closer = ')' := by
    simpa [ofTypes, or_assoc] using hcloses
  have htext : Tight (name ++ (gap ++ opener :: (inner ++ [closer]))) := by
    have hend : gap ++ opener :: (inner ++ [closer]) = (gap ++ opener :: inner) ++ [closer] := by
      simp
    rw [hend]
    exact htight.append _ (by rcases hcloser with rfl | rfl | rfl <;> decide)
  have hend : name ++ (gap ++ opener :: (inner ++ [closer])) =
      (name ++ (gap ++ opener :: inner)) ++ [closer] := by simp
  have hnullable : nullableBody? (name ++ (gap ++ opener :: (inner ++ [closer]))) = none := by
    rw [hend]
    apply nullableBody?_append
    rintro rfl
    cases hcloses
  -- A balanced text does not end with an opening bracket, so that this is no empty pair.
  have harray : arrayBody? (name ++ (gap ++ opener :: (inner ++ [closer]))) = none := by
    by_contra h
    obtain ⟨body, hbody⟩ := Option.ne_none_iff_exists'.mp h
    obtain ⟨hsuffix, -⟩ := arrayBody?_eq_some_iff.mp hbody
    obtain ⟨front, last, rfl⟩ := (List.eq_nil_or_concat' inner).resolve_left hne
    have hlast : last = '[' := by
      rw [show name ++ (gap ++ opener :: ((front ++ [last]) ++ [closer])) =
        (name ++ (gap ++ opener :: front)) ++ [last, closer] by simp] at hsuffix
      exact (List.cons.inj (List.append_inj_right' hsuffix rfl)).1
    rw [hlast] at hinner
    cases hinner.opens_last
  have happly : application? (name ++ (gap ++ opener :: (inner ++ [closer]))) =
      some (name, (ofTypes.split ',' inner).filter fun arg => !arg.isEmpty) := by
    refine application?_eq_some_iff.mpr ⟨name ++ gap, opener, inner, closer, by simp, ?_, hopener,
      hinner, hopens, hcloses, ?_, hpath, rfl⟩
    · intro c hc
      rcases List.mem_append.mp hc with hc | hc
      · have hplain : ofTypes.IsPlain (fun _ => false) c := isPlain_of_mem_path hpath hc (by simp)
        exact opensArgs_of_opens hplain.opens
      · have hplain : ofTypes.IsPlain (fun _ => false) c :=
          isPlain_of_isBlank (List.all_eq_true.mp hgap c hc) (by simp)
        exact opensArgs_of_opens hplain.opens
    · rw [← List.nil_append (name ++ gap), trim_between rfl hgap, htight.trim_eq]
  rw [parse_eq, htext.trim_eq, hnullable, harray, happly]

/-- The written form of an application is read as the name with what is read of its arguments. -/
theorem parse_application {name : List Char} {ts : List TypeExpr} (hpath : isPath name = true)
    (htight : Tight name) (hne : ts ≠ [])
    (hsolid : ∀ t ∈ ts, ofTypes.Solid (· == ',') 0 t.display)
    (htights : ∀ t ∈ ts, Tight t.display) :
    parse (name ++ '<' :: (displayArgs ts ++ ['>'])) =
      ⟨String.ofList name, ts.map fun t => parse t.display, false⟩ := by
  have hargs : (ofTypes.split ',' (displayArgs ts)).filter (fun arg => !arg.isEmpty) =
      ts.map display := by
    rw [split_displayArgs hne hsolid htights, List.filter_eq_self]
    intro arg harg
    obtain ⟨t, ht, rfl⟩ := List.mem_map.mp harg
    simp [(htights t ht).ne_nil]
  have hwritten : displayArgs ts ≠ [] := by
    intro hnil
    rw [hnil] at hargs
    exact hne (List.map_eq_nil_iff.mp hargs.symm)
  have hparse := @parse_bracketed name [] (displayArgs ts) '<' '>' hpath htight rfl rfl rfl rfl
    hwritten (closing_displayArgs fun t ht => (hsolid t ht).closing)
  rw [hargs, List.map_map] at hparse
  exact hparse

/-- Reading the written form of what was read gives the same type again. -/
theorem parse_display_parse (cs : List Char) : parse (parse cs).display = parse cs := by
  induction cs using parseInduction with
  | nullable cs body hbody hparse ih =>
      have htight := tight_display_parse (nullableBody?_eq_some_iff.mp hbody).2
      rw [hparse]
      cases hnullable : (parse body).nullable with
      | true => rw [orNull_of_nullable hnullable, ih]
      | false => rw [display_orNull hnullable, parse_append_mark htight, ih]
  | arrayOf cs body hbody hparse ih =>
      obtain ⟨-, hblank, hclosing⟩ := arrayBody?_eq_some_iff.mp hbody
      have hbalanced : ofTypes.Closing 0 (parse body).display :=
        solid_display_parse (by simp) hclosing
      rw [hparse, display_array, parse_append_array (tight_display_parse hblank) hbalanced, ih]
  | application cs name args happly hparse ih =>
      obtain ⟨front, _, inner, _, -, -, -, hinner, -, -, rfl, hpath, rfl⟩ :=
        application?_eq_some_iff.mp happly
      have hname := tight_trim_of_isPath hpath
      rw [hparse]
      by_cases hargs : ((ofTypes.split ',' inner).filter fun arg => !arg.isEmpty).map parse = []
      · rw [hargs, display_empty, parse_path hpath hname]
      · rw [display_application hpath hargs, parse_application hpath hname hargs]
        · simp only [List.map_map]
          congr 1
          exact List.map_congr_left ih
        · intro t ht
          obtain ⟨arg, harg, rfl⟩ := List.mem_map.mp ht
          exact solid_display_parse (fun c => beq_iff_eq.mp)
            (solid_of_mem_split hinner (List.mem_filter.mp harg).1)
        · intro t ht
          obtain ⟨arg, harg, rfl⟩ := List.mem_map.mp ht
          exact tight_display_parse (allBlank_of_mem_args harg)
  | plain cs hparse => rw [hparse, display_named, parse_trim, hparse]

end Precis.TypeExpr
