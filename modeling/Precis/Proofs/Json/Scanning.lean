import Precis.Proofs.Json.Grammar

/-! # Spelled values are read back

Every spelling of a value is a text of what is read of the value. -/

namespace Precis.Json

open Scan

/-! ## Strings -/

/-- An element of a string that stands for a character. -/
def StandsFor (u : StringUnit) (c : Char) : Prop :=
  u = .char c ∨ u = .hex c.toNat ∧ c.toNat < 0x20

theorem hexValue?_hexDigit : ∀ n < 16, hexValue? (hexDigit n) = some n := by
  decide

/-- A control character that is written in hexadecimal is read as its number. -/
theorem hexValue4?_control {n : Nat} (h : n < 0x20) :
    hexValue4? '0' '0' (hexDigit (n / 16)) (hexDigit (n % 16)) = some n := by
  have hhigh := hexValue?_hexDigit (n / 16) (by omega)
  have hlow := hexValue?_hexDigit (n % 16) (by omega)
  have hzero : hexValue? '0' = some 0 := by decide
  simp only [hexValue4?, hhigh, hlow, hzero]
  simp
  omega

/-- An escaped character is a text of an element that stands for it. -/
theorem unitText_escapeChar (c : Char) : ∃ u, StandsFor u c ∧ UnitText u (escapeChar c) := by
  unfold escapeChar
  split_ifs with hquote hback hb hf hn hr ht hcontrol
  · exact ⟨_, .inl rfl, .escape (by rw [hquote]; rfl)⟩
  · exact ⟨_, .inl rfl, .escape (by rw [hback]; rfl)⟩
  · exact ⟨_, .inl rfl, .escape (by rw [hb]; rfl)⟩
  · exact ⟨_, .inl rfl, .escape (by rw [hf]; rfl)⟩
  · exact ⟨_, .inl rfl, .escape (by rw [hn]; rfl)⟩
  · exact ⟨_, .inl rfl, .escape (by rw [hr]; rfl)⟩
  · exact ⟨_, .inl rfl, .escape (by rw [ht]; rfl)⟩
  · exact ⟨_, .inr ⟨rfl, hcontrol⟩, .hex (hexValue4?_control hcontrol)⟩
  · exact ⟨_, .inl rfl, .plain hcontrol hquote hback⟩

/-- Elements that stand for characters are put together to them. -/
theorem unite?_cons {u : StringUnit} {c : Char} (h : StandsFor u c) (units : List StringUnit) :
    unite? (u :: units) = (unite? units).map (c :: ·) := by
  rcases h with rfl | ⟨rfl, hcontrol⟩
  · rw [unite?]
  · have hchar : Char.ofNat c.toNat = c := Char.ofNat_toNat c
    have hlone : ¬ (0xD800 ≤ c.toNat ∧ c.toNat < 0xE000) := by omega
    rcases units with _ | ⟨_ | v, units⟩
    · simp [unite?, hlone, hchar]
    · simp [unite?, hlone, hchar]
    · rw [unite?, if_neg (by omega), if_neg (by omega), hchar]

/-- The inside of a quoted text is a text of elements that stand for its characters. -/
theorem stringText_flatMap_escapeChar (cs : List Char) :
    ∃ units, StringText units (cs.flatMap escapeChar) ∧ unite? units = some cs := by
  induction cs with
  | nil => exact ⟨[], .nil, rfl⟩
  | cons c cs ih =>
      obtain ⟨units, hunits, hunite⟩ := ih
      obtain ⟨u, hu, htext⟩ := unitText_escapeChar c
      exact ⟨u :: units, .cons htext hunits, by rw [unite?_cons hu, hunite, Option.map_some]⟩

theorem quotedText_quote (s : String) : QuotedText (some s) (quote s) := by
  obtain ⟨units, hunits, hunite⟩ := stringText_flatMap_escapeChar s.toList
  have htext : text? units = some s := by
    rw [text?, hunite, Option.map_some, String.ofList_toList]
  rw [← htext]
  exact .intro hunits

/-! ## Numbers -/

theorem isDigits_decimal (n : Nat) : IsDigits (decimal n) where
  ne_nil := Nat.toDigits_ne_nil
  digits := by
    intro c hc
    have hdigit := Nat.isDigit_of_mem_toDigits (by decide) (by decide) hc
    simpa [isDigit, Char.isDigit, Char.le_def, GE.ge] using hdigit

theorem ofDigits_decimal (n : Nat) : ofDigits (decimal n) = n := by
  have h := @Nat.ofDigitChars_toDigits 10 n (by decide) (by decide)
  simpa [Nat.ofDigitChars, ofDigits, decimal, digitValue, Nat.mul_comm] using h

/-- Only zero is written with a leading zero. -/
theorem head_decimal {n : Nat} (h : (decimal n).head? = some '0') : decimal n = ['0'] := by
  unfold decimal at h ⊢
  induction n using Nat.strongRecOn with
  | ind n ih =>
      by_cases hlt : n < 10
      · rw [Nat.toDigits_of_lt_base hlt] at h ⊢
        simpa using h
      · rw [Nat.toDigits_of_base_le (by decide) (by omega),
          List.head?_append_of_ne_nil _ Nat.toDigits_ne_nil] at h
        have hzero := ih (n / 10) (by omega) h
        have hvalue := ofDigits_decimal (n / 10)
        rw [decimal, hzero] at hvalue
        have : n / 10 = 0 := hvalue.symm
        omega

theorem numeralText_decimal (n : Nat) :
    NumeralText ⟨false, decimal n, none, none⟩ (decimal n) := by
  simpa using NumeralText.intro false (isDigits_decimal n) head_decimal .absent .absent

/-! ## Whole values -/

mutual

theorem Spells.writes {v : Value} {text : List Char} (h : Spells v text) :
    Writes v.reading text := by
  cases h with
  | null => exact .null
  | bool b => exact .bool b
  | num n => exact .num (numeralText_decimal n)
  | str s => exact .str (quotedText_quote s)
  | emptyArr hgap => exact .emptyArr hgap
  | arr h => exact .arr h.writes
  | emptyObj hgap => exact .emptyObj hgap
  | obj h => exact .obj h.writes

theorem SpellsItems.writes {items : List Value} {text : List Char} (h : SpellsItems items text) :
    WritesItems (readingItems items) text := by
  cases h with
  | last hbefore h hafter => exact .last hbefore h.writes hafter
  | cons hbefore h hafter hrest => exact .cons hbefore h.writes hafter hrest.writes

theorem SpellsMembers.writes {members : List (String × Value)} {text : List Char}
    (h : SpellsMembers members text) : WritesMembers (readingMembers members) text := by
  cases h with
  | last key hbefore hcolon hbetween h hafter =>
      exact .last hbefore (quotedText_quote key) hcolon hbetween h.writes hafter
  | cons key hbefore hcolon hbetween h hafter hrest =>
      exact .cons hbefore (quotedText_quote key) hcolon hbetween h.writes hafter hrest.writes

end

theorem Spells.writesDocument {v : Value} {text : List Char} (h : Spells v text) :
    WritesDocument v.reading text := by
  simpa using WritesDocument.intro isGap_nil h.writes isGap_nil

/-- Every spelling of a value is a clean document that holds it. -/
theorem Spells.parse_eq {v : Value} {text : List Char} (h : Spells v text) :
    Document.parse text = ⟨v.reading, true⟩ :=
  h.writesDocument.parse_eq

end Precis.Json
