import Precis.Frontend.PythonDocstring
import Precis.Proofs.Text.Bytes
import Precis.Proofs.Text.Contents
import Precis.Proofs.Text.Cutting

/-! # Cleaned docstrings

Cleaning takes the quotes off a string literal and the shared indentation off its lines. Whatever
the mixture of white space in front of the lines, only white space goes: the lines of the cleaned
text say what the lines of the body say. -/

namespace Precis.Python

open Text

/-! ## String literals -/

/-- Whether a mark would end a literal inside its body: it stands there, and no backslash takes
it. -/
def endsEarly (mark : Char) : List Char → Bool
  | [] => false
  | '\\' :: _ :: rest => endsEarly mark rest
  | c :: rest => c == mark || endsEarly mark rest

/-- A string literal. Within single quote marks the body must not have the mark itself. -/
structure StringLiteral where
  letters : List Char
  mark : Char
  triple : Bool
  body : List Char
  letters_mem : ∀ c ∈ letters, c ∈ "rRuUbB".toList
  mark_mem : mark = '"' ∨ mark = '\x27'
  closed : triple = false → endsEarly mark body = false

namespace StringLiteral

/-- The quote at both ends of the body. -/
def quote (l : StringLiteral) : List Char :=
  if l.triple then [l.mark, l.mark, l.mark] else [l.mark]

/-- The text of a literal. -/
def text (l : StringLiteral) : List Char :=
  l.letters ++ (l.quote ++ (l.body ++ l.quote))

end StringLiteral

/-! ## The body of a literal -/

theorem endsEarly_cons_self {mark : Char} (h : mark ≠ '\\') (rest : List Char) :
    endsEarly mark (mark :: rest) = true := by
  rw [endsEarly.eq_3 mark mark rest fun _ _ hmark _ => h hmark]
  simp

/-- The letters in front of a literal are no part of its quote. -/
theorem dropWhile_text (l : StringLiteral) :
    l.text.dropWhile isStringMark = l.quote ++ (l.body ++ l.quote) := by
  have hletters : ∀ c ∈ l.letters, isStringMark c = true := by
    have hmarks : "rRuUbB".toList.all isStringMark = true := by decide
    exact fun c hc => List.all_eq_true.mp hmarks c (l.letters_mem c hc)
  have hmark : isStringMark l.mark = false := by
    rcases l.mark_mem with h | h <;> rw [h] <;> rfl
  rw [StringLiteral.text, List.dropWhile_append_of_pos hletters, StringLiteral.quote]
  split
  · exact List.dropWhile_cons_of_neg (by simp [hmark])
  · exact List.dropWhile_cons_of_neg (by simp [hmark])

/-- A quote of one mark does not look like a quote of three. -/
theorem dropPrefix?_triple {mark : Char} (hmark : mark ≠ '\\') {body : List Char}
    (hclosed : endsEarly mark body = false) :
    dropPrefix? [mark, mark, mark] (mark :: (body ++ [mark])) = none := by
  have hsecond : dropPrefix? [mark, mark] (body ++ [mark]) = none := by
    cases body with
    | nil => simp [dropPrefix?]
    | cons c rest =>
        apply dropPrefix?_cons_of_ne
        rintro rfl
        rw [endsEarly_cons_self hmark] at hclosed
        cases hclosed
  rwa [dropPrefix?, if_pos rfl]

/-- What stands between two quotes that are alike. -/
theorem between_quotes (quote cs : List Char) :
    (dropPrefix? quote (quote ++ (cs ++ quote))).bind (dropSuffix? quote) = some cs := by
  rw [dropPrefix?_eq_some_iff.mpr rfl, Option.bind_some, dropSuffix?_eq_some_iff.mpr rfl]

/-- The body of a literal is found whichever quote it has: no longer quote fits before, and no
quote of the other mark. -/
theorem literalBody_text (l : StringLiteral) : literalBody l.text = l.body := by
  have hclosed := l.closed
  rw [literalBody, dropWhile_text, StringLiteral.quote]
  rcases l.mark_mem with hmark | hmark
  · rw [hmark] at hclosed ⊢
    cases htriple : l.triple with
    | true => rw [if_pos rfl, quotes, List.findSome?_cons, between_quotes, Option.getD_some]
    | false =>
        have hlonger := dropPrefix?_triple (by decide) (hclosed htriple)
        have hown := between_quotes ['"'] l.body
        rw [List.singleton_append] at hown
        simp [quotes, hlonger, dropPrefix?_cons_of_ne, hown]
  · rw [hmark] at hclosed ⊢
    cases htriple : l.triple with
    | true =>
        have hown := between_quotes ['\x27', '\x27', '\x27'] l.body
        simp only [List.cons_append, List.nil_append] at hown
        simp [quotes, dropPrefix?_cons_of_ne, hown]
    | false =>
        have hlonger := dropPrefix?_triple (by decide) (hclosed htriple)
        have hown := between_quotes ['\x27'] l.body
        rw [List.singleton_append] at hown
        simp [quotes, hlonger, dropPrefix?_cons_of_ne, hown]

/-! ## Indentation -/

/-- The front of a line is blank as far as its indentation reaches. -/
theorem isBlank_of_mem_front {front rest : List Char}
    (h : byteLength front ≤ indentation (front ++ rest)) : ∀ c ∈ front, isBlank c = true := by
  induction front with
  | nil => simp
  | cons c front ih =>
      have hsize := c.utf8Size_pos
      cases hc : isBlank c with
      | true =>
          rw [indentation, List.cons_append, List.takeWhile_cons_of_pos hc, byteLength,
            byteLength] at h
          exact List.forall_mem_cons.mpr ⟨hc, ih (by rw [indentation]; omega)⟩
      | false =>
          rw [indentation, List.cons_append, List.takeWhile_cons_of_neg (by simp [hc]), byteLength,
            byteLength] at h
          omega

/-- Dedenting cuts off the front of a line, which is blank if the line is or is indented that
far. -/
theorem dedent_spec (n : Nat) (line : List Char) :
    ∃ front, line = front ++ dedent n line ∧
      (allBlank line = true ∨ n ≤ indentation line → allBlank front = true) := by
  unfold dedent
  cases hdrop : dropBytes? n line with
  | none =>
      refine ⟨line.takeWhile isBlank, List.takeWhile_append_dropWhile.symm, fun _ => ?_⟩
      exact List.all_eq_true.mpr fun c => List.mem_takeWhile_imp
  | some rest =>
      obtain ⟨front, rfl, rfl⟩ := dropBytes?_eq_some_iff.mp hdrop
      refine ⟨front, rfl, ?_⟩
      rintro (hblank | hindent)
      · rw [allBlank, List.all_append, Bool.and_eq_true] at hblank
        exact hblank.1
      · exact List.all_eq_true.mpr (isBlank_of_mem_front hindent)

/-- Every line that is not blank is indented as far as all of them are. -/
theorem sharedIndentation_le {rows : List (List Char)} {row : List Char} (h : row ∈ rows)
    (hblank : allBlank row = false) : sharedIndentation rows ≤ indentation row := by
  apply List.min?_getD_le_of_mem
  apply List.mem_map_of_mem
  exact List.mem_filter.mpr ⟨h, by simp [hblank]⟩

/-- Taking the shared indentation off the lines does not change what they say. -/
theorem visible_dedent (rows : List (List Char)) :
    visible (rows.map (dedent (sharedIndentation rows))) = visible rows := by
  apply visible_congr
  rw [List.map_map]
  apply List.map_congr_left
  intro row hrow
  have hindent : allBlank row = true ∨ sharedIndentation rows ≤ indentation row := by
    cases hblank : allBlank row with
    | true => exact .inl rfl
    | false => exact .inr (sharedIndentation_le hrow hblank)
  obtain ⟨front, hline, hfront⟩ := dedent_spec (sharedIndentation rows) row
  have htrim := trim_between (hfront hindent) (rfl : allBlank [] = true)
    (dedent (sharedIndentation rows) row)
  rw [List.append_nil, ← hline] at htrim
  exact htrim.symm

/-! ## Cleaning -/

theorem newline_notMem_trim {line : List Char} (h : '\n' ∉ line) : '\n' ∉ trim line := by
  obtain ⟨before, after, hline, -, -⟩ := trim_spec line
  intro hmem
  exact h (by rw [hline]; exact List.mem_append_right _ (List.mem_append_left _ hmem))

theorem newline_notMem_dedent {line : List Char} (h : '\n' ∉ line) (n : Nat) :
    '\n' ∉ dedent n line := by
  obtain ⟨front, hline, -⟩ := dedent_spec n line
  intro hmem
  exact h (by rw [hline]; exact List.mem_append_right _ hmem)

/-- The lines of a cleaned docstring say what the lines of the body say. -/
theorem contents_cleanDocstring (cs : List Char) :
    contents (cleanDocstring cs) = contents (literalBody cs) := by
  have hlines := newline_notMem_lines (literalBody cs)
  rw [contents_eq_lines (literalBody cs), cleanDocstring]
  cases hbody : lines (literalBody cs) with
  | nil => rfl
  | cons first rest =>
      rw [hbody] at hlines
      obtain ⟨hfirst, hrest⟩ := List.forall_mem_cons.mp hlines
      have hrows :
          ∀ row ∈ trim first :: rest.map (dedent (sharedIndentation rest)), '\n' ∉ row := by
        refine List.forall_mem_cons.mpr ⟨newline_notMem_trim hfirst, ?_⟩
        intro row hrow
        obtain ⟨line, hline, rfl⟩ := List.mem_map.mp hrow
        exact newline_notMem_dedent (hrest line hline) _
      calc contents (trim (joinWith ['\n']
            (trim first :: rest.map (dedent (sharedIndentation rest)))))
          = visible (trim first :: rest.map (dedent (sharedIndentation rest))) := by
            rw [contents_trim, contents_joinWith hrows]
        _ = visible [first] ++ visible rest := by
            rw [visible_cons, visible_dedent, visible_singleton_congr (trim_trim first)]
        _ = visible (first :: rest) := (visible_cons first rest).symm

/-- A trimmed text neither starts nor ends with white space. -/
theorem not_isBlank_of_trim {cs : List Char} {c : Char}
    (hc : (trim cs).head? = some c ∨ (trim cs).getLast? = some c) : isBlank c = false := by
  cases hblank : allBlank cs with
  | true => simp [trim_eq_nil_iff.mpr hblank] at hc
  | false =>
      obtain ⟨⟨d, rest, hfirst, hd⟩, ⟨front, e, hlast, he⟩⟩ := tight_trim hblank
      rcases hc with hc | hc
      · obtain rfl : d = c := by simpa [hfirst] using hc
        exact hd
      · obtain rfl : e = c := by simpa [hlast] using hc
        exact he

/-- Cleaning a docstring keeps all that its lines say, in order, and leaves no white space at
either end, whatever the literal looks like. -/
theorem cleanDocstring_keeps (l : StringLiteral) :
    contents (cleanDocstring l.text) = contents l.body ∧
    ∀ c, (cleanDocstring l.text).head? = some c ∨ (cleanDocstring l.text).getLast? = some c →
      isBlank c = false := by
  refine ⟨by rw [contents_cleanDocstring, literalBody_text], ?_⟩
  intro c hc
  have htrim : cleanDocstring l.text = trim (cleanDocstring l.text) := by
    rw [cleanDocstring]
    split
    · rfl
    · exact (trim_trim _).symm
  rw [htrim] at hc
  exact not_isBlank_of_trim hc

/-- A literal whose lines are indented by characters of one and of two bytes. -/
def indentedLiteral : StringLiteral where
  letters := ['r']
  mark := '"'
  triple := true
  body := "Adds.\n\u00a0\tFast\r\n\n and \"safe\"\n".toList
  letters_mem := List.forall_mem_singleton.mpr (by decide)
  mark_mem := .inl rfl
  closed h := absurd h (by decide)

/-- One byte is no place to cut the second line, so it loses all white space in front. -/
example : cleanDocstring indentedLiteral.text = "Adds.\nFast\n\nand \"safe\"".toList := by
  decide +kernel

/-- A literal with an escaped quote mark and an escaped line feed in single quote marks. -/
def escapedLiteral : StringLiteral where
  letters := []
  mark := '\x27'
  triple := false
  body := " It\\\x27s \\\n  safe ".toList
  letters_mem := List.forall_mem_nil _
  mark_mem := .inr rfl
  closed _ := by decide

/-- The backslashes stay. -/
example : cleanDocstring escapedLiteral.text = "It\\\x27s \\\nsafe".toList := by
  decide +kernel

end Precis.Python
