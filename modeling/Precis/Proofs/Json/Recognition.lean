import Precis.Proofs.Json.Grammar

/-! # What is read belongs to the grammar

Where reading does not break off, the text that was read is one of the texts of the value, and what
is left of it comes right behind. Together with the converse, a text is a clean document that holds
a value exactly if the grammar has it as a text of that value. -/

namespace Precis.Json

open Scan

/-! ## White space and strings -/

theorem exists_gap (cs : List Char) : ∃ gap, IsGap gap ∧ cs = gap ++ skipSpace cs := by
  refine ⟨cs.takeWhile isSpace, fun c hc => List.mem_takeWhile_imp hc, ?_⟩
  exact List.takeWhile_append_dropWhile.symm

theorem exists_gap_of_skipSpace {cs rest : List Char} (h : skipSpace cs = rest) :
    ∃ gap, IsGap gap ∧ cs = gap ++ rest :=
  h ▸ exists_gap cs

/-- One more element in front of those of a string. -/
theorem StringText.exists_cons {u : StringUnit} {first cs rest : List Char}
    {units : List StringUnit} (hfirst : UnitText u first)
    (h : ∃ text, StringText units text ∧ cs = text ++ '"' :: rest) :
    ∃ text, StringText (u :: units) text ∧ first ++ cs = text ++ '"' :: rest := by
  obtain ⟨text, htext, rfl⟩ := h
  exact ⟨first ++ text, .cons hfirst htext, by rw [List.append_assoc]⟩

theorem stringText_of_string? {cs rest : List Char} {units : List StringUnit}
    (h : string? cs = some (units, rest)) :
    ∃ text, StringText units text ∧ cs = text ++ '"' :: rest := by
  fun_induction string? cs generalizing units with
  | case1 => cases h
  | case2 cs =>
      cases h
      exact ⟨[], .nil, rfl⟩
  | case3 a b c d cs ih =>
      simp only [Option.bind_eq_bind, Option.bind_eq_some_iff] at h
      obtain ⟨u, hu, ⟨others, rest'⟩, hothers, heq⟩ := h
      cases heq
      exact StringText.exists_cons (.hex hu) (ih hothers)
  | case4 e cs hhex ih =>
      simp only [Option.bind_eq_bind, Option.bind_eq_some_iff] at h
      obtain ⟨c, hc, ⟨others, rest'⟩, hothers, heq⟩ := h
      cases heq
      exact StringText.exists_cons (.escape hc) (ih hothers)
  | case5 c cs hquote hhex hescape hplain => cases h
  | case6 c cs hquote hhex hescape hplain ih =>
      simp only [Option.bind_eq_bind, Option.bind_eq_some_iff] at h
      obtain ⟨⟨others, rest'⟩, hothers, heq⟩ := h
      cases heq
      obtain ⟨hcontrol, hback⟩ := not_or.mp hplain
      exact StringText.exists_cons (.plain hcontrol hquote hback) (ih hothers)

theorem quotedText_of_string? {cs rest : List Char} {units : List StringUnit}
    (h : string? cs = some (units, rest)) :
    ∃ name, QuotedText (text? units) name ∧ '"' :: cs = name ++ rest := by
  obtain ⟨text, htext, rfl⟩ := stringText_of_string? h
  exact ⟨_, .intro htext, by simp⟩

/-! ## Numbers -/

/-- The digits at the front of a text, and what follows them. -/
theorem exists_digits {cs : List Char} (h : ¬ (cs.takeWhile isDigit).isEmpty = true) :
    IsDigits (cs.takeWhile isDigit) ∧ cs = cs.takeWhile isDigit ++ cs.dropWhile isDigit := by
  refine ⟨⟨by simpa using h, fun c hc => List.mem_takeWhile_imp hc⟩, ?_⟩
  exact List.takeWhile_append_dropWhile.symm

theorem isDigits_of_whole? {cs whole rest : List Char} (h : whole? cs = some (whole, rest)) :
    IsDigits whole ∧ (whole.head? = some '0' → whole = ['0']) ∧ cs = whole ++ rest := by
  unfold whole? at h
  split at h
  next tail =>
    have hzero : whole = ['0'] ∧ rest = tail := by
      cases tail with
      | nil =>
          cases h
          exact ⟨rfl, rfl⟩
      | cons d tail =>
          dsimp only at h
          split_ifs at h
          cases h
          exact ⟨rfl, rfl⟩
    obtain ⟨rfl, rfl⟩ := hzero
    exact ⟨⟨by simp, List.forall_mem_singleton.mpr rfl⟩, fun _ => rfl, rfl⟩
  next hzero =>
    dsimp only at h
    split_ifs at h with hempty
    cases h
    obtain ⟨hdigits, hcs⟩ := exists_digits hempty
    refine ⟨hdigits, fun hhead => ?_, hcs⟩
    -- A text that starts with a zero is read by the other branch.
    obtain ⟨tail, htail⟩ := List.head?_eq_some_iff.mp hhead
    rw [htail] at hcs
    exact absurd hcs (hzero _)

theorem fractionText_of_fraction? {cs rest : List Char} {fraction : Option (List Char)}
    (h : fraction? cs = some (fraction, rest)) :
    ∃ point, FractionText fraction point ∧ cs = point ++ rest := by
  unfold fraction? at h
  split at h
  next tail =>
    dsimp only at h
    split_ifs at h with hempty
    cases h
    obtain ⟨hdigits, htail⟩ := exists_digits hempty
    exact ⟨_, .given hdigits, by rw [List.cons_append, ← htail]⟩
  next =>
    cases h
    exact ⟨[], .absent, rfl⟩

theorem exponentText_of_digits {e : Char} (he : e = 'e' ∨ e = 'E') {negative : Bool}
    {sign digits rest : List Char} (hsign : SignText negative sign)
    {exponent : Option (Bool × List Char)}
    (h : (if (digits.takeWhile isDigit).isEmpty then none
      else some (some (negative, digits.takeWhile isDigit), digits.dropWhile isDigit)) =
        some (exponent, rest)) :
    ∃ mark, ExponentText exponent mark ∧ e :: (sign ++ digits) = mark ++ rest := by
  split_ifs at h with hempty
  cases h
  obtain ⟨hdigits, hcs⟩ := exists_digits hempty
  refine ⟨_, .given he hsign hdigits, ?_⟩
  rw [List.cons_append, List.append_assoc, ← hcs]

theorem exponentText_of_exponent? {cs rest : List Char} {exponent : Option (Bool × List Char)}
    (h : exponent? cs = some (exponent, rest)) :
    ∃ mark, ExponentText exponent mark ∧ cs = mark ++ rest := by
  unfold exponent? at h
  split at h
  next =>
    cases h
    exact ⟨[], .absent, rfl⟩
  next e tail =>
    split_ifs at h with he
    · dsimp only at h
      split at h
      next => exact exponentText_of_digits he .plus h
      next => exact exponentText_of_digits he .minus h
      next => exact exponentText_of_digits he .absent h
    · cases h
      exact ⟨[], .absent, rfl⟩

theorem numeralText_of_number? {cs rest : List Char} {n : Numeral}
    (h : number? cs = some (n, rest)) : ∃ text, NumeralText n text ∧ cs = text ++ rest := by
  unfold number? at h
  split at h
  next negative tail hsign =>
    have hcs : cs = (if negative then ['-'] else []) ++ tail := by
      split at hsign <;> cases hsign <;> rfl
    simp only [Option.bind_eq_bind, Option.bind_eq_some_iff] at h
    obtain ⟨⟨whole, _⟩, hwhole, ⟨fraction, _⟩, hfraction, ⟨exponent, _⟩, hexponent, heq⟩ := h
    cases heq
    obtain ⟨hdigits, hzero, rfl⟩ := isDigits_of_whole? hwhole
    obtain ⟨point, hpoint, rfl⟩ := fractionText_of_fraction? hfraction
    obtain ⟨mark, hmark, rfl⟩ := exponentText_of_exponent? hexponent
    exact ⟨_, .intro negative hdigits hzero hpoint hmark, by simp [hcs]⟩

/-! ## Values -/

/-- The text of a value, with white space before it. -/
theorem exists_writes {item : Reading} {cs before text rest tail : List Char}
    (hbefore : IsGap before) (hcs : cs = before ++ tail) (h : Writes item text)
    (htail : tail = text ++ rest) :
    ∃ before text, IsGap before ∧ Writes item text ∧ cs = before ++ (text ++ rest) :=
  ⟨before, text, hbefore, h, by rw [hcs, htail]⟩

mutual

/-- A value that was read up to `rest` has its text between white space and `rest`. -/
theorem writes_of_value (fuel : Nat) {cs rest : List Char} {item : Reading}
    (h : value fuel cs = (item, some rest)) :
    ∃ before text, IsGap before ∧ Writes item text ∧ cs = before ++ (text ++ rest) := by
  cases fuel with
  | zero => cases h
  | succ fuel =>
      obtain ⟨before, hbefore, hcs⟩ := exists_gap cs
      rw [value] at h
      split at h
      next tail hskip =>
        rw [hskip] at hcs
        split at h
        next after hafter =>
          cases h
          obtain ⟨gap, hgap, rfl⟩ := exists_gap_of_skipSpace hafter
          exact exists_writes hbefore hcs (.emptyObj hgap) (by simp)
        next =>
          rw [members_skipSpace] at h
          cases hread : members fuel tail with
          | mk all after =>
              simp only [hread, Prod.mk.injEq] at h
              obtain ⟨rfl, rfl⟩ := h
              obtain ⟨text, htext, rfl⟩ := writes_of_members fuel hread
              exact exists_writes hbefore hcs (.obj htext) (by simp)
      next tail hskip =>
        rw [hskip] at hcs
        split at h
        next after hafter =>
          cases h
          obtain ⟨gap, hgap, rfl⟩ := exists_gap_of_skipSpace hafter
          exact exists_writes hbefore hcs (.emptyArr hgap) (by simp)
        next =>
          rw [items_skipSpace] at h
          cases hread : items fuel tail with
          | mk row after =>
              simp only [hread, Prod.mk.injEq] at h
              obtain ⟨rfl, rfl⟩ := h
              obtain ⟨text, htext, rfl⟩ := writes_of_items fuel hread
              exact exists_writes hbefore hcs (.arr htext) (by simp)
      next tail hskip =>
        rw [hskip] at hcs
        split at h
        next units after hstring =>
          cases h
          obtain ⟨text, htext, htail⟩ := quotedText_of_string? hstring
          exact exists_writes hbefore hcs (.str htext) htail
        next => cases h
      next after hskip =>
        cases h
        exact exists_writes hbefore hcs .null hskip
      next after hskip =>
        cases h
        exact exists_writes hbefore hcs (.bool true) hskip
      next after hskip =>
        cases h
        exact exists_writes hbefore hcs (.bool false) hskip
      next =>
        split at h
        next n after hnumber =>
          cases h
          obtain ⟨text, htext, htail⟩ := numeralText_of_number? hnumber
          exact exists_writes hbefore hcs (.num htext) htail
        next => cases h
termination_by fuel

theorem writes_of_items (fuel : Nat) {cs rest : List Char} {row : List Reading}
    (h : items fuel cs = (row, some rest)) :
    ∃ text, WritesItems row text ∧ cs = text ++ ']' :: rest := by
  cases fuel with
  | zero => cases h
  | succ fuel =>
      rw [items] at h
      split at h
      next => cases h
      next item tail hitem =>
        obtain ⟨before, text, hbefore, htext, rfl⟩ := writes_of_value fuel hitem
        split at h
        next after hafter =>
          cases h
          obtain ⟨gap, hgap, rfl⟩ := exists_gap_of_skipSpace hafter
          exact ⟨_, .last hbefore htext hgap, by simp⟩
        next after hafter =>
          obtain ⟨gap, hgap, rfl⟩ := exists_gap_of_skipSpace hafter
          cases hread : items fuel after with
          | mk others end? =>
              simp only [hread, Prod.mk.injEq] at h
              obtain ⟨rfl, rfl⟩ := h
              obtain ⟨othersText, hothers, rfl⟩ := writes_of_items fuel hread
              exact ⟨_, .cons hbefore htext hgap hothers, by simp⟩
        next => cases h
termination_by fuel

theorem writes_of_members (fuel : Nat) {cs rest : List Char}
    {all : List (Option String × Reading)} (h : members fuel cs = (all, some rest)) :
    ∃ text, WritesMembers all text ∧ cs = text ++ '\x7d' :: rest := by
  cases fuel with
  | zero => cases h
  | succ fuel =>
      obtain ⟨before, hbefore, hcs⟩ := exists_gap cs
      rw [members] at h
      split at h
      next tail hskip =>
        rw [hskip] at hcs
        split at h
        next => cases h
        next units behind hstring =>
          obtain ⟨name, hname, hquote⟩ := quotedText_of_string? hstring
          rw [hquote] at hcs
          dsimp only at h
          split at h
          next inside hcolon =>
            obtain ⟨colon, hgap, rfl⟩ := exists_gap_of_skipSpace hcolon
            split at h
            next => cases h
            next item after hitem =>
              obtain ⟨between, text, hbetween, htext, rfl⟩ := writes_of_value fuel hitem
              split at h
              next last hlast =>
                cases h
                obtain ⟨gap, hgap', rfl⟩ := exists_gap_of_skipSpace hlast
                exact ⟨_, .last hbefore hname hgap hbetween htext hgap', by simp [hcs]⟩
              next next hnext =>
                obtain ⟨gap, hgap', rfl⟩ := exists_gap_of_skipSpace hnext
                cases hread : members fuel next with
                | mk others end? =>
                    simp only [hread, Prod.mk.injEq] at h
                    obtain ⟨rfl, rfl⟩ := h
                    obtain ⟨othersText, hothers, rfl⟩ := writes_of_members fuel hread
                    exact ⟨_, .cons hbefore hname hgap hbetween htext hgap' hothers,
                      by simp [hcs]⟩
              next => cases h
          next => cases h
      next => cases h
termination_by fuel

end

/-- A text is a clean document exactly if it is one of the texts of what it holds. -/
theorem writesDocument_iff {item : Reading} {text : List Char} :
    WritesDocument item text ↔ Document.parse text = ⟨item, true⟩ := by
  constructor
  · exact WritesDocument.parse_eq
  · intro h
    rw [Document.parse] at h
    split at h
    next found rest hread =>
      obtain ⟨before, written, hbefore, hwritten, rfl⟩ := writes_of_value _ hread
      obtain ⟨rfl, hend⟩ : found = item ∧ (skipSpace rest).isEmpty = true := by simpa using h
      obtain ⟨after, hafter, hrest⟩ := exists_gap_of_skipSpace (List.isEmpty_iff.mp hend)
      rw [List.append_nil] at hrest
      exact .intro hbefore hwritten (hrest ▸ hafter)
    next => simp at h

end Precis.Json
