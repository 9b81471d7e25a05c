import Precis.Proofs.Json.Spelling
import Mathlib.Data.List.Forall2
import Mathlib.Data.List.TakeWhile

/-! # The grammar of JSON

The texts of a reading: literals, numbers in any notation, strings that mix plain and escaped
characters, arrays and objects, with white space between the tokens. Reading such a text gives the
reading and stops right behind it. What follows must not prolong a number; otherwise it does not
matter. -/

namespace Precis.Json

open Scan

/-! ## Strings -/

/-- The texts of one element of a string. -/
inductive UnitText : StringUnit → List Char → Prop where
  | plain {c : Char} (hcontrol : ¬ c.toNat < 0x20) (hquote : c ≠ '"') (hback : c ≠ '\\') :
      UnitText (.char c) [c]
  | escape {e c : Char} (h : simpleEscape? e = some c) : UnitText (.char c) ['\\', e]
  | hex {a b c d : Char} {u : Nat} (h : hexValue4? a b c d = some u) :
      UnitText (.hex u) ['\\', 'u', a, b, c, d]

/-- The texts of a string, without its quotes. -/
inductive StringText : List StringUnit → List Char → Prop where
  | nil : StringText [] []
  | cons {u : StringUnit} {units : List StringUnit} {first rest : List Char}
      (h : UnitText u first) (hrest : StringText units rest) :
      StringText (u :: units) (first ++ rest)

/-- The texts of a string, with its quotes; `none` for one that holds half of a surrogate pair. -/
inductive QuotedText : Option String → List Char → Prop where
  | intro {units : List StringUnit} {text : List Char} (h : StringText units text) :
      QuotedText (text? units) ('"' :: (text ++ ['"']))

/-- An element of a string is read, whatever follows. -/
theorem UnitText.string?_eq {u : StringUnit} {text : List Char} (h : UnitText u text)
    (cs : List Char) :
    string? (text ++ cs) = (string? cs).map fun found => (u :: found.1, found.2) := by
  cases h with
  | @plain c hcontrol hquote hback =>
      rw [List.singleton_append, string?]
      · rw [if_neg (by simp [hcontrol, hback])]
        cases string? cs <;> rfl
      · exact hquote
      all_goals
        intros
        subst c
        exact absurd rfl hback
  | @escape e c h =>
      simp only [List.cons_append, List.nil_append]
      rw [string?, h]
      · cases string? cs <;> rfl
      · rintro _ _ _ _ _ rfl
        cases h
  | hex h =>
      simp only [List.cons_append, List.nil_append]
      rw [string?, h]
      cases string? cs <;> rfl

/-- The inside of a string is read up to the closing quote. -/
theorem StringText.string?_eq {units : List StringUnit} {text : List Char}
    (h : StringText units text) (rest : List Char) :
    string? (text ++ '"' :: rest) = some (units, rest) := by
  induction h with
  | nil => rfl
  | cons h _ ih => rw [List.append_assoc, h.string?_eq, ih, Option.map_some]

/-- A string is read once its opening quote is seen. -/
theorem QuotedText.string?_eq {s : Option String} {text : List Char} (h : QuotedText s text)
    (rest : List Char) :
    ∃ inside units, text ++ rest = '"' :: inside ∧ string? inside = some (units, rest) ∧
      text? units = s := by
  cases h with
  | @intro units text h => exact ⟨text ++ '"' :: rest, units, by simp, h.string?_eq rest, rfl⟩

/-! ## Numbers -/

/-- A run of decimal digits, which is not empty. -/
structure IsDigits (cs : List Char) : Prop where
  ne_nil : cs ≠ []
  digits : ∀ c ∈ cs, isDigit c = true

/-- The texts of the part of a number behind the point. -/
inductive FractionText : Option (List Char) → List Char → Prop where
  | absent : FractionText none []
  | given {digits : List Char} (h : IsDigits digits) : FractionText (some digits) ('.' :: digits)

/-- The texts of the sign of an exponent. -/
inductive SignText : Bool → List Char → Prop where
  | absent : SignText false []
  | plus : SignText false ['+']
  | minus : SignText true ['-']

/-- The texts of an exponent. -/
inductive ExponentText : Option (Bool × List Char) → List Char → Prop where
  | absent : ExponentText none []
  | given {mark : Char} {negative : Bool} {sign digits : List Char}
      (hmark : mark = 'e' ∨ mark = 'E') (hsign : SignText negative sign) (h : IsDigits digits) :
      ExponentText (some (negative, digits)) (mark :: (sign ++ digits))

/-- The texts of a number. A zero before the point stands alone. -/
inductive NumeralText : Numeral → List Char → Prop where
  | intro (negative : Bool) {whole : List Char} {fraction : Option (List Char)}
      {exponent : Option (Bool × List Char)} {point mark : List Char} (hwhole : IsDigits whole)
      (hzero : whole.head? = some '0' → whole = ['0']) (hfraction : FractionText fraction point)
      (hexponent : ExponentText exponent mark) :
      NumeralText ⟨negative, whole, fraction, exponent⟩
        ((if negative then ['-'] else []) ++ (whole ++ (point ++ mark)))

/-- What may follow a number: no character that could prolong it. -/
def Ends (cs : List Char) : Prop :=
  ∀ c ∈ cs.head?, isDigit c = false ∧ c ≠ '.' ∧ c ≠ 'e' ∧ c ≠ 'E'

theorem ends_nil : Ends [] := by
  simp [Ends]

theorem ends_cons {c : Char} {cs : List Char} :
    Ends (c :: cs) ↔ isDigit c = false ∧ c ≠ '.' ∧ c ≠ 'e' ∧ c ≠ 'E' := by
  simp [Ends]

theorem ends_gap {gap cs : List Char} (hgap : IsGap gap) (hcs : Ends cs) : Ends (gap ++ cs) := by
  cases gap with
  | nil => exact hcs
  | cons c gap =>
      have hc := hgap c List.mem_cons_self
      simp only [isSpace, Bool.or_eq_true, beq_iff_eq] at hc
      rw [List.cons_append, ends_cons]
      rcases hc with ((rfl | rfl) | rfl) | rfl <;> decide

theorem isSpace_of_isDigit {c : Char} (h : isDigit c = true) : isSpace c = false := by
  by_contra hspace
  simp only [isSpace, Bool.not_eq_false, Bool.or_eq_true, beq_iff_eq] at hspace
  rcases hspace with ((rfl | rfl) | rfl) | rfl <;> exact absurd h (by decide)

theorem IsDigits.eq_cons {cs : List Char} (h : IsDigits cs) :
    ∃ c rest, cs = c :: rest ∧ isDigit c = true := by
  obtain ⟨c, rest, rfl⟩ := List.exists_cons_of_ne_nil h.ne_nil
  exact ⟨c, rest, rfl, h.digits c List.mem_cons_self⟩

/-- A run of digits ends where no digit follows. -/
theorem IsDigits.takeWhile_eq {ds rest : List Char} (h : IsDigits ds)
    (hrest : ∀ c ∈ rest.head?, isDigit c = false) :
    (ds ++ rest).takeWhile isDigit = ds ∧ (ds ++ rest).dropWhile isDigit = rest := by
  rw [List.takeWhile_append_of_pos h.digits, List.dropWhile_append_of_pos h.digits]
  cases rest with
  | nil => simp
  | cons c rest => simp [hrest c (by simp)]

theorem whole?_eq {whole rest : List Char} (h : IsDigits whole)
    (hzero : whole.head? = some '0' → whole = ['0'])
    (hrest : ∀ c ∈ rest.head?, isDigit c = false) :
    whole? (whole ++ rest) = some (whole, rest) := by
  obtain ⟨htake, hdrop⟩ := h.takeWhile_eq hrest
  by_cases hhead : whole.head? = some '0'
  · rw [hzero hhead, List.singleton_append]
    cases rest with
    | nil => rfl
    | cons c rest => exact if_neg (by simp [hrest c (by simp)])
  · rw [whole?, htake, hdrop]
    · simp [h.ne_nil]
    · intro tail htail
      apply hhead
      rw [← List.head?_append_of_ne_nil _ h.ne_nil, htail, List.head?_cons]

theorem FractionText.fraction?_eq {fraction : Option (List Char)} {point rest : List Char}
    (h : FractionText fraction point) (hrest : ∀ c ∈ rest.head?, isDigit c = false ∧ c ≠ '.') :
    fraction? (point ++ rest) = some (fraction, rest) := by
  cases h with
  | absent =>
      rw [List.nil_append, fraction?]
      rintro tail rfl
      exact (hrest '.' (by simp)).2 rfl
  | given h =>
      obtain ⟨htake, hdrop⟩ := h.takeWhile_eq fun c hc => (hrest c hc).1
      rw [List.cons_append, fraction?, htake, hdrop]
      simp [h.ne_nil]

theorem ExponentText.exponent?_eq {exponent : Option (Bool × List Char)} {mark rest : List Char}
    (h : ExponentText exponent mark) (hrest : Ends rest) :
    exponent? (mark ++ rest) = some (exponent, rest) := by
  cases h with
  | absent =>
      cases rest with
      | nil => rfl
      | cons c rest =>
          obtain ⟨-, -, hsmall, hlarge⟩ := ends_cons.mp hrest
          simp [exponent?, hsmall, hlarge]
  | @given mark negative sign digits hmark hsign h =>
      obtain ⟨htake, hdrop⟩ := h.takeWhile_eq fun c hc => (hrest c hc).1
      cases hsign with
      | absent =>
          -- Without a sign the first digit is none of the two signs.
          obtain ⟨c, tail, rfl, hc⟩ := h.eq_cons
          rw [List.cons_append, List.nil_append, exponent?, if_pos hmark, htake, hdrop]
          · rfl
          · rintro _ ⟨⟩
            exact absurd hc (by decide)
          · rintro _ ⟨⟩
            exact absurd hc (by decide)
      | plus => simp [exponent?, hmark, htake, hdrop, h.ne_nil]
      | minus => simp [exponent?, hmark, htake, hdrop, h.ne_nil]

/-- What follows the digits before the point does not prolong them. -/
theorem ExponentText.head {exponent : Option (Bool × List Char)} {mark rest : List Char}
    (h : ExponentText exponent mark) (hrest : Ends rest) :
    ∀ c ∈ (mark ++ rest).head?, isDigit c = false ∧ c ≠ '.' := by
  cases h with
  | absent =>
      intro c hc
      exact ⟨(hrest c hc).1, (hrest c hc).2.1⟩
  | given hmark _ _ =>
      rcases hmark with rfl | rfl <;> simp <;> decide

theorem FractionText.head {fraction : Option (List Char)} {point rest : List Char}
    (h : FractionText fraction point) (hrest : ∀ c ∈ rest.head?, isDigit c = false) :
    ∀ c ∈ (point ++ rest).head?, isDigit c = false := by
  cases h with
  | absent => exact hrest
  | given _ => simp; decide

/-- A number is read up to where its text ends. -/
theorem NumeralText.number?_eq {n : Numeral} {text rest : List Char} (h : NumeralText n text)
    (hrest : Ends rest) : number? (text ++ rest) = some (n, rest) := by
  cases h with
  | @intro negative whole fraction exponent point mark hwhole hzero hfraction hexponent =>
      have hmark := hexponent.head hrest
      have hread := whole?_eq hwhole hzero (hfraction.head fun c hc => (hmark c hc).1)
      have hpoint := hfraction.fraction?_eq hmark
      have hexp := hexponent.exponent?_eq hrest
      simp only [List.append_assoc]
      cases negative with
      | true => simp [number?, hread, hpoint, hexp]
      | false =>
          obtain ⟨c, tail, rfl, hc⟩ := hwhole.eq_cons
          have hsign : ∀ tail', c :: (tail ++ (point ++ (mark ++ rest))) ≠ '-' :: tail' := by
            rintro tail' ⟨⟩
            exact absurd hc (by decide)
          rw [List.cons_append] at hread
          simp only [Bool.false_eq_true, if_false, List.nil_append, List.cons_append]
          rw [number?]
          · simp [hread, hpoint, hexp]
          · exact hsign

/-- A number starts with a digit or a minus sign. -/
theorem NumeralText.eq_cons {n : Numeral} {text : List Char} (h : NumeralText n text) :
    ∃ c rest, text = c :: rest ∧ (isDigit c = true ∨ c = '-') := by
  cases h with
  | @intro negative whole fraction exponent point mark hwhole _ _ _ =>
      cases negative with
      | true => exact ⟨'-', _, rfl, .inr rfl⟩
      | false =>
          obtain ⟨c, rest, rfl, hc⟩ := hwhole.eq_cons
          exact ⟨c, _, rfl, .inl hc⟩

/-! ## Values -/

mutual

/-- The texts of a value that was read to its end, with any white space between the tokens. -/
inductive Writes : Reading → List Char → Prop where
  | null : Writes .null (literal none)
  | bool (b : Bool) : Writes (.bool b) (literal (some b))
  | num {n : Numeral} {text : List Char} (h : NumeralText n text) : Writes (.num n) text
  | str {s : Option String} {text : List Char} (h : QuotedText s text) : Writes (.str s) text
  | emptyArr {gap : List Char} (hgap : IsGap gap) : Writes (.arr [] true) ('[' :: (gap ++ [']']))
  | arr {items : List Reading} {text : List Char} (h : WritesItems items text) :
      Writes (.arr items true) ('[' :: (text ++ [']']))
  | emptyObj {gap : List Char} (hgap : IsGap gap) :
      Writes (.obj [] true) ('\x7b' :: (gap ++ ['\x7d']))
  | obj {members : List (Option String × Reading)} {text : List Char}
      (h : WritesMembers members text) :
      Writes (.obj members true) ('\x7b' :: (text ++ ['\x7d']))

/-- The texts of the elements of an array that is not empty. -/
inductive WritesItems : List Reading → List Char → Prop where
  | last {item : Reading} {before text after : List Char} (hbefore : IsGap before)
      (h : Writes item text) (hafter : IsGap after) :
      WritesItems [item] (before ++ (text ++ after))
  | cons {item : Reading} {rest : List Reading} {before text after others : List Char}
      (hbefore : IsGap before) (h : Writes item text) (hafter : IsGap after)
      (hrest : WritesItems rest others) :
      WritesItems (item :: rest) (before ++ (text ++ (after ++ ',' :: others)))

/-- The texts of the members of an object that is not empty. -/
inductive WritesMembers : List (Option String × Reading) → List Char → Prop where
  | last {key : Option String} {item : Reading}
      {before name colon between text after : List Char} (hbefore : IsGap before)
      (hname : QuotedText key name) (hcolon : IsGap colon) (hbetween : IsGap between)
      (h : Writes item text) (hafter : IsGap after) :
      WritesMembers [(key, item)]
        (before ++ (name ++ (colon ++ ':' :: (between ++ (text ++ after)))))
  | cons {key : Option String} {item : Reading} {rest : List (Option String × Reading)}
      {before name colon between text after others : List Char} (hbefore : IsGap before)
      (hname : QuotedText key name) (hcolon : IsGap colon) (hbetween : IsGap between)
      (h : Writes item text) (hafter : IsGap after) (hrest : WritesMembers rest others) :
      WritesMembers ((key, item) :: rest)
        (before ++ (name ++ (colon ++ ':' :: (between ++ (text ++ (after ++ ',' :: others))))))

end

/-- The texts of a document: those of its value, with white space around them. -/
inductive WritesDocument : Reading → List Char → Prop where
  | intro {item : Reading} {before text after : List Char} (hbefore : IsGap before)
      (h : Writes item text) (hafter : IsGap after) :
      WritesDocument item (before ++ (text ++ after))

/-! ## White space -/

theorem skipSpace_gap {gap : List Char} (h : IsGap gap) (cs : List Char) :
    skipSpace (gap ++ cs) = skipSpace cs :=
  List.dropWhile_append_of_pos h

theorem skipSpace_cons {c : Char} (h : isSpace c = false) (cs : List Char) :
    skipSpace (c :: cs) = c :: cs :=
  List.dropWhile_cons_of_neg (by simp [h])

theorem skipSpace_gap_cons {gap : List Char} (hgap : IsGap gap) {c : Char}
    (hc : isSpace c = false) (cs : List Char) : skipSpace (gap ++ c :: cs) = c :: cs := by
  rw [skipSpace_gap hgap, skipSpace_cons hc]

theorem skipSpace_skipSpace (cs : List Char) : skipSpace (skipSpace cs) = skipSpace cs := by
  induction cs with
  | nil => rfl
  | cons c cs ih =>
      cases hc : isSpace c with
      | true => simpa [skipSpace, hc] using ih
      | false => rw [skipSpace_cons hc, skipSpace_cons hc]

/-- White space before a value does not matter. -/
theorem value_skipSpace (fuel : Nat) (cs : List Char) :
    value fuel (skipSpace cs) = value fuel cs := by
  cases fuel with
  | zero => rfl
  | succ fuel => rw [value, value, skipSpace_skipSpace]

theorem items_skipSpace (fuel : Nat) (cs : List Char) :
    items fuel (skipSpace cs) = items fuel cs := by
  cases fuel with
  | zero => rfl
  | succ fuel => rw [items, items, value_skipSpace]

theorem members_skipSpace (fuel : Nat) (cs : List Char) :
    members fuel (skipSpace cs) = members fuel cs := by
  cases fuel with
  | zero => rfl
  | succ fuel => rw [members, members, skipSpace_skipSpace]

theorem value_gap {gap : List Char} (h : IsGap gap) (fuel : Nat) (cs : List Char) :
    value fuel (gap ++ cs) = value fuel cs := by
  rw [← value_skipSpace, skipSpace_gap h, value_skipSpace]

theorem members_gap {gap : List Char} (h : IsGap gap) (fuel : Nat) (cs : List Char) :
    members fuel (gap ++ cs) = members fuel cs := by
  rw [← members_skipSpace, skipSpace_gap h, members_skipSpace]

/-! ## Single steps of the reader -/

theorem value_emptyArray {fuel : Nat} {gap : List Char} (h : IsGap gap) (rest : List Char) :
    value (fuel + 1) ('[' :: (gap ++ ']' :: rest)) = (.arr [] true, some rest) := by
  rw [value, skipSpace_cons rfl]
  simp only [skipSpace_gap_cons h (rfl : isSpace ']' = false)]

theorem value_emptyObject {fuel : Nat} {gap : List Char} (h : IsGap gap) (rest : List Char) :
    value (fuel + 1) ('\x7b' :: (gap ++ '\x7d' :: rest)) = (.obj [] true, some rest) := by
  rw [value, skipSpace_cons rfl]
  simp only [skipSpace_gap_cons h (rfl : isSpace '\x7d' = false)]

theorem value_array {fuel : Nat} {cs : List Char} (h : ∀ after, skipSpace cs ≠ ']' :: after) :
    value (fuel + 1) ('[' :: cs) =
      (.arr (items fuel cs).1 (items fuel cs).2.isSome, (items fuel cs).2) := by
  rw [value, skipSpace_cons rfl, ← items_skipSpace]
  simp only

theorem value_object {fuel : Nat} {cs : List Char}
    (h : ∀ after, skipSpace cs ≠ '\x7d' :: after) :
    value (fuel + 1) ('\x7b' :: cs) =
      (.obj (members fuel cs).1 (members fuel cs).2.isSome, (members fuel cs).2) := by
  rw [value, skipSpace_cons rfl, ← members_skipSpace]
  simp only

theorem value_string {s : Option String} {text : List Char} (h : QuotedText s text) (fuel : Nat)
    (rest : List Char) : value (fuel + 1) (text ++ rest) = (.str s, some rest) := by
  obtain ⟨inside, units, hquote, hread, htext⟩ := h.string?_eq rest
  rw [hquote, value, skipSpace_cons rfl]
  simp only [hread, htext]

/-- A text that starts with a digit or a minus sign is read as a number. -/
theorem value_number {fuel : Nat} {c : Char} {cs rest : List Char} {n : Numeral}
    (hc : isDigit c = true ∨ c = '-') (h : number? (c :: cs) = some (n, rest)) :
    value (fuel + 1) (c :: cs) = (.num n, some rest) := by
  have hspace : isSpace c = false := by
    rcases hc with hc | rfl
    · exact isSpace_of_isDigit hc
    · rfl
  rw [value, skipSpace_cons hspace]
  split <;> rename_i hshape <;> try (obtain ⟨rfl, -⟩ := hshape; exact absurd hc (by decide))
  simp [h]

theorem items_last {fuel : Nat} {cs rest after : List Char} {item : Reading}
    (hitem : value fuel cs = (item, some rest)) (hrest : skipSpace rest = ']' :: after) :
    items (fuel + 1) cs = ([item], some after) := by
  simp only [items, hitem, hrest]

theorem items_more {fuel : Nat} {cs rest after : List Char} {item : Reading}
    (hitem : value fuel cs = (item, some rest)) (hrest : skipSpace rest = ',' :: after) :
    items (fuel + 1) cs = (item :: (items fuel after).1, (items fuel after).2) := by
  simp only [items, hitem, hrest]

theorem members_last {fuel : Nat} {key : Option String} {name colon cs rest after : List Char}
    {item : Reading} (hname : QuotedText key name) (hcolon : IsGap colon)
    (hitem : value fuel cs = (item, some rest)) (hrest : skipSpace rest = '\x7d' :: after) :
    members (fuel + 1) (name ++ (colon ++ ':' :: cs)) = ([(key, item)], some after) := by
  obtain ⟨inside, units, hquote, hread, htext⟩ := hname.string?_eq (colon ++ ':' :: cs)
  rw [hquote, members, skipSpace_cons rfl]
  simp only [hread, htext, skipSpace_gap_cons hcolon (rfl : isSpace ':' = false), hitem, hrest]

theorem members_more {fuel : Nat} {key : Option String} {name colon cs rest after : List Char}
    {item : Reading} (hname : QuotedText key name) (hcolon : IsGap colon)
    (hitem : value fuel cs = (item, some rest)) (hrest : skipSpace rest = ',' :: after) :
    members (fuel + 1) (name ++ (colon ++ ':' :: cs)) =
      ((key, item) :: (members fuel after).1, (members fuel after).2) := by
  obtain ⟨inside, units, hquote, hread, htext⟩ := hname.string?_eq (colon ++ ':' :: cs)
  rw [hquote, members, skipSpace_cons rfl]
  simp only [hread, htext, skipSpace_gap_cons hcolon (rfl : isSpace ':' = false), hitem, hrest]

/-! ## Whole values -/

theorem QuotedText.eq_cons {s : Option String} {text : List Char} (h : QuotedText s text) :
    ∃ rest, text = '"' :: rest := by
  cases h
  exact ⟨_, rfl⟩

/-- A written value starts with a character that is neither white space nor a closing bracket. -/
theorem Writes.head {item : Reading} {text : List Char} (h : Writes item text) :
    ∃ c cs, text = c :: cs ∧ isSpace c = false ∧ c ≠ ']' := by
  cases h with
  | null => exact ⟨_, _, rfl, by decide⟩
  | bool b => cases b <;> exact ⟨_, _, rfl, by decide⟩
  | num h =>
      obtain ⟨c, cs, hcs, hc⟩ := h.eq_cons
      refine ⟨c, cs, hcs, ?_⟩
      rcases hc with hc | rfl
      · refine ⟨isSpace_of_isDigit hc, ?_⟩
        rintro rfl
        exact absurd hc (by decide)
      · decide
  | str h =>
      obtain ⟨rest, rfl⟩ := h.eq_cons
      exact ⟨_, _, rfl, by decide⟩
  | emptyArr hgap => exact ⟨_, _, rfl, by decide⟩
  | arr h => exact ⟨_, _, rfl, by decide⟩
  | emptyObj hgap => exact ⟨_, _, rfl, by decide⟩
  | obj h => exact ⟨_, _, rfl, by decide⟩

/-- The elements of an array do not start with its end. -/
theorem WritesItems.skipSpace_ne {items : List Reading} {text : List Char}
    (h : WritesItems items text) (cs after : List Char) :
    skipSpace (text ++ cs) ≠ ']' :: after := by
  have hitem {item : Reading} {before text : List Char} (hbefore : IsGap before)
      (h : Writes item text) (cs : List Char) :
      skipSpace (before ++ (text ++ cs)) ≠ ']' :: after := by
    obtain ⟨c, tail, rfl, hspace, hc⟩ := h.head
    rw [skipSpace_gap hbefore, List.cons_append, skipSpace_cons hspace]
    rintro ⟨⟩
    exact hc rfl
  cases h with
  | last hbefore h _ => simpa using hitem hbefore h _
  | cons hbefore h _ _ => simpa using hitem hbefore h _

theorem WritesMembers.skipSpace_ne {members : List (Option String × Reading)} {text : List Char}
    (h : WritesMembers members text) (cs after : List Char) :
    skipSpace (text ++ cs) ≠ '\x7d' :: after := by
  have hquote {before name : List Char} {key : Option String} (hbefore : IsGap before)
      (hname : QuotedText key name) (cs : List Char) :
      skipSpace (before ++ (name ++ cs)) ≠ '\x7d' :: after := by
    obtain ⟨rest, rfl⟩ := hname.eq_cons
    rw [skipSpace_gap hbefore, List.cons_append, skipSpace_cons rfl]
    rintro ⟨⟩
  cases h with
  | last hbefore hname _ _ _ _ => simpa using hquote hbefore hname _
  | cons hbefore hname _ _ _ _ _ => simpa using hquote hbefore hname _

mutual

/-- A written value is read back, up to where its text ends. -/
theorem Writes.value_eq {item : Reading} {text : List Char} (h : Writes item text) {fuel : Nat}
    {rest : List Char} (hfuel : 2 * text.length + 1 ≤ fuel) (hrest : Ends rest) :
    value fuel (text ++ rest) = (item, some rest) := by
  -- Each call costs one unit, and two calls in a row go past at least one character.
  obtain ⟨fuel, rfl⟩ : ∃ n, fuel = n + 1 := Nat.exists_eq_add_one.mpr (by omega)
  cases h with
  | null => rfl
  | bool b => cases b <;> rfl
  | num h =>
      have hnumber := h.number?_eq hrest
      obtain ⟨c, cs, rfl, hc⟩ := h.eq_cons
      exact value_number hc hnumber
  | str h => exact value_string h fuel rest
  | emptyArr hgap =>
      simp only [List.cons_append, List.append_assoc, List.nil_append, value_emptyArray hgap]
  | @arr items text h =>
      have hlength : 2 * text.length + 2 ≤ fuel := by
        simp at hfuel
        omega
      simp only [List.cons_append, List.append_assoc, List.nil_append]
      rw [value_array (h.skipSpace_ne _), h.items_eq hlength]
      rfl
  | emptyObj hgap =>
      simp only [List.cons_append, List.append_assoc, List.nil_append, value_emptyObject hgap]
  | @obj members text h =>
      have hlength : 2 * text.length + 2 ≤ fuel := by
        simp at hfuel
        omega
      simp only [List.cons_append, List.append_assoc, List.nil_append]
      rw [value_object (h.skipSpace_ne _), h.members_eq hlength]
      rfl

theorem WritesItems.items_eq {items : List Reading} {text : List Char}
    (h : WritesItems items text) {fuel : Nat} {rest : List Char}
    (hfuel : 2 * text.length + 2 ≤ fuel) :
    Scan.items fuel (text ++ ']' :: rest) = (items, some rest) := by
  obtain ⟨fuel, rfl⟩ : ∃ n, fuel = n + 1 := Nat.exists_eq_add_one.mpr (by omega)
  cases h with
  | @last item before text after hbefore h hafter =>
      simp only [List.append_assoc, List.length_append] at hfuel ⊢
      have hitem : Scan.value fuel (text ++ (after ++ ']' :: rest)) =
          (item, some (after ++ ']' :: rest)) :=
        h.value_eq (by omega) (ends_gap hafter (ends_cons.mpr (by decide)))
      rw [← value_gap hbefore] at hitem
      exact items_last hitem (skipSpace_gap_cons hafter rfl _)
  | @cons item others before text after othersText hbefore h hafter hothers =>
      simp only [List.append_assoc, List.cons_append, List.length_append, List.length_cons]
        at hfuel ⊢
      have hitem : Scan.value fuel (text ++ (after ++ ',' :: (othersText ++ ']' :: rest))) =
          (item, some (after ++ ',' :: (othersText ++ ']' :: rest))) :=
        h.value_eq (by omega) (ends_gap hafter (ends_cons.mpr (by decide)))
      rw [← value_gap hbefore] at hitem
      rw [items_more hitem (skipSpace_gap_cons hafter rfl _), hothers.items_eq (by omega)]

theorem WritesMembers.members_eq {members : List (Option String × Reading)} {text : List Char}
    (h : WritesMembers members text) {fuel : Nat} {rest : List Char}
    (hfuel : 2 * text.length + 2 ≤ fuel) :
    Scan.members fuel (text ++ '\x7d' :: rest) = (members, some rest) := by
  obtain ⟨fuel, rfl⟩ : ∃ n, fuel = n + 1 := Nat.exists_eq_add_one.mpr (by omega)
  cases h with
  | @last key item before name colon between text after hbefore hname hcolon hbetween h hafter =>
      simp only [List.append_assoc, List.cons_append, List.length_append, List.length_cons]
        at hfuel ⊢
      have hitem : Scan.value fuel (text ++ (after ++ '\x7d' :: rest)) =
          (item, some (after ++ '\x7d' :: rest)) :=
        h.value_eq (by omega) (ends_gap hafter (ends_cons.mpr (by decide)))
      rw [← value_gap hbetween] at hitem
      rw [members_gap hbefore]
      exact members_last hname hcolon hitem (skipSpace_gap_cons hafter rfl _)
  | @cons key item others before name colon between text after othersText hbefore hname hcolon
      hbetween h hafter hothers =>
      simp only [List.append_assoc, List.cons_append, List.length_append, List.length_cons]
        at hfuel ⊢
      have hitem : Scan.value fuel (text ++ (after ++ ',' :: (othersText ++ '\x7d' :: rest))) =
          (item, some (after ++ ',' :: (othersText ++ '\x7d' :: rest))) :=
        h.value_eq (by omega) (ends_gap hafter (ends_cons.mpr (by decide)))
      rw [← value_gap hbetween] at hitem
      rw [members_gap hbefore,
        members_more hname hcolon hitem (skipSpace_gap_cons hafter rfl _),
        hothers.members_eq (by omega)]

end

/-- Every text of a document is a clean document that holds its value. -/
theorem WritesDocument.parse_eq {item : Reading} {text : List Char}
    (h : WritesDocument item text) : Document.parse text = ⟨item, true⟩ := by
  cases h with
  | @intro before text after hbefore h hafter =>
      have hvalue : value (2 * (before ++ (text ++ after)).length + 1) (text ++ after) =
          (item, some after) := by
        apply h.value_eq
        · simp only [List.length_append]
          omega
        · simpa using ends_gap hafter ends_nil
      have hend : skipSpace after = [] := by
        rw [← List.append_nil after, skipSpace_gap hafter]
        rfl
      rw [Document.parse, value_gap hbefore, hvalue]
      simp [hend]

end Precis.Json
