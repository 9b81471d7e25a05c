import Precis.Frontend.RustUseTree

/-! # Tidying

Tidying cuts a text into words, puts it together again with single spaces, and then removes the
spaces around path separators. It works from left to right: what it makes of a text is what it makes
of the beginning, and then of the rest. -/

namespace Precis.Rust

open Text

/-! ## Words with single spaces between them -/

/-- The words of a text with single spaces between them. -/
def squeeze (cs : List Char) : List Char :=
  joinWith [' '] (words cs)

theorem words_append_blank {b : Char} (hb : isBlank b = true) (xs ys : List Char) :
    words (xs ++ b :: ys) = words xs ++ words ys := by
  rw [words, List.splitOnP_append_cons _ _ hb, List.filter_append]
  rfl

theorem words_blank_append {gap : List Char} (h : allBlank gap = true) (cs : List Char) :
    words (gap ++ cs) = words cs := by
  induction gap with
  | nil => rfl
  | cons b gap ih =>
      obtain ⟨hb, hgap⟩ := List.forall_mem_cons.mp (List.all_eq_true.mp h)
      exact (words_append_blank hb [] (gap ++ cs)).trans (ih (List.all_eq_true.mpr hgap))

/-- A text that starts with a word has a first word, which takes up a character before it. -/
theorem words_cons {c : Char} (hc : isBlank c = false) (cs : List Char) :
    ∃ first rest, words (c :: cs) = (c :: first) :: rest ∧
      ∀ {d : Char}, isBlank d = false → words (d :: c :: cs) = (d :: c :: first) :: rest := by
  obtain ⟨first, rest, hsplit⟩ := List.exists_cons_of_ne_nil (List.splitOnP_ne_nil isBlank cs)
  refine ⟨first, rest.filter fun word => !word.isEmpty, ?_, ?_⟩
  · simp [words, List.splitOnP_cons_eq_if_modifyHead, hc, hsplit]
  · intro d hd
    simp [words, List.splitOnP_cons_eq_if_modifyHead, hc, hd, hsplit]

theorem joinWith_cons_cons (c : Char) (first : List Char) (rest : List (List Char)) :
    joinWith [' '] ((c :: first) :: rest) = c :: joinWith [' '] (first :: rest) := by
  cases rest <;> rfl

/-- What is left of white space between two texts. -/
def squash (gap : List Char) : List Char :=
  if gap.isEmpty then [] else [' ']

/-- What is left of white space in front of a text. -/
def squashBefore (rest gap : List Char) : List Char :=
  if rest.isEmpty then [] else squash gap

theorem squeeze_cons {c : Char} {gap rest : List Char} (hc : isBlank c = false)
    (hgap : allBlank gap = true) (hrest : ∀ d ∈ rest.head?, isBlank d = false) :
    squeeze (c :: (gap ++ rest)) = c :: (squashBefore rest gap ++ squeeze rest) := by
  have hword : words [c] = [[c]] := by
    simp [words, List.splitOnP_cons_eq_if_modifyHead, hc]
  cases gap with
  | nil =>
      cases rest with
      | nil => rw [List.nil_append, squeeze, hword]; rfl
      | cons d rest =>
          obtain ⟨first, others, hwords, hcons⟩ := words_cons (hrest d rfl) rest
          rw [List.nil_append, squeeze, squeeze, hcons hc, hwords, joinWith_cons_cons]
          rfl
  | cons b gap =>
      obtain ⟨hb, hgap⟩ := List.forall_mem_cons.mp (List.all_eq_true.mp hgap)
      have hwords : words (c :: (b :: gap ++ rest)) = [c] :: words rest := by
        have hcut := words_append_blank hb [c] (gap ++ rest)
        rwa [hword, words_blank_append (List.all_eq_true.mpr hgap)] at hcut
      cases rest with
      | nil => rw [squeeze, squeeze, hwords]; rfl
      | cons d rest =>
          obtain ⟨first, others, hrest, -⟩ := words_cons (hrest d rfl) rest
          rw [squeeze, squeeze, hwords, hrest]
          rfl

/-! ## The spaces around separators -/

/-- A character of a name or of a group: neither white space nor part of a path separator. -/
structure InWord (c : Char) : Prop where
  notBlank : isBlank c = false
  notColon : c ≠ ':'

theorem InWord.ne_space {c : Char} (h : InWord c) : c ≠ ' ' := by
  rintro rfl
  exact absurd h.notBlank (by decide)

theorem squash_cases (gap : List Char) : squash gap = [] ∨ squash gap = [' '] := by
  cases gap with
  | nil => exact .inl rfl
  | cons b gap => exact .inr rfl

theorem tightenAfter_cons_of_ne {c : Char} (h : c ≠ ':') (cs : List Char) :
    tightenAfter (c :: cs) = c :: tightenAfter cs := by
  rw [tightenAfter.eq_2]
  simp [h]

theorem tightenAfter_separator {d : Char} (h : InWord d) (gap ds : List Char) :
    tightenAfter (separator ++ (squash gap ++ d :: ds)) =
      separator ++ tightenAfter (d :: ds) := by
  rcases squash_cases gap with hgap | hgap
  · simp [hgap, separator, tightenAfter, h.ne_space, h.notColon]
  · simp [hgap, separator, tightenAfter]

theorem tightenBefore_cons_of_ne {c : Char} (h : c ≠ ' ') (cs : List Char) :
    tightenBefore (c :: cs) = c :: tightenBefore cs := by
  rw [tightenBefore.eq_2]
  simp [h]

theorem tightenBefore_space {d : Char} (h : d ≠ ':') (ds : List Char) :
    tightenBefore (' ' :: d :: ds) = ' ' :: tightenBefore (d :: ds) := by
  rw [tightenBefore.eq_2]
  simp [h]

theorem tightenBefore_separator (gap cs : List Char) :
    tightenBefore (squash gap ++ (separator ++ cs)) = separator ++ tightenBefore cs := by
  rcases squash_cases gap with hgap | hgap <;> simp [hgap, separator, tightenBefore]

/-! ## From left to right -/

/-- A text that is empty or starts with a character of a word. -/
def Opens (cs : List Char) : Prop :=
  ∀ c ∈ cs.head?, InWord c

theorem tidy_eq (cs : List Char) : tidy cs = tightenBefore (tightenAfter (squeeze cs)) :=
  rfl

theorem tightenAfter_squash (gap cs : List Char) :
    tightenAfter (squash gap ++ cs) = squash gap ++ tightenAfter cs := by
  rcases squash_cases gap with hgap | hgap
  · rw [hgap]
    rfl
  · rw [hgap]
    exact tightenAfter_cons_of_ne (by decide) cs

/-- A text that starts with a word still does when it is squeezed. -/
theorem squeeze_eq_cons {d : Char} (h : isBlank d = false) (ds : List Char) :
    ∃ rest, squeeze (d :: ds) = d :: rest := by
  obtain ⟨first, others, hwords, -⟩ := words_cons h ds
  exact ⟨_, by rw [squeeze, hwords, joinWith_cons_cons]⟩

theorem tidy_cons {c : Char} {gap rest : List Char} (hc : InWord c) (hgap : allBlank gap = true)
    (hrest : Opens rest) :
    tidy (c :: (gap ++ rest)) = c :: (squashBefore rest gap ++ tidy rest) := by
  rw [tidy_eq, squeeze_cons hc.notBlank hgap fun d hd => (hrest d hd).notBlank,
    tightenAfter_cons_of_ne hc.notColon, tightenBefore_cons_of_ne hc.ne_space, tidy_eq]
  cases rest with
  | nil => rfl
  | cons d rest =>
      obtain ⟨others, hothers⟩ := squeeze_eq_cons (hrest d rfl).notBlank rest
      have hd : d ≠ ':' := (hrest d rfl).notColon
      rw [hothers]
      change c :: tightenBefore (tightenAfter (squash gap ++ d :: others)) = c :: (squash gap ++ _)
      rw [tightenAfter_squash, tightenAfter_cons_of_ne hd]
      rcases squash_cases gap with hgap | hgap
      · rw [hgap]
        rfl
      · rw [hgap]
        exact congrArg (c :: ·) (tightenBefore_space hd _)

/-- No space is left around a separator between two words. -/
theorem tidy_separator {c d : Char} {before after : List Char} (hc : InWord c)
    (hbefore : allBlank before = true) (hafter : allBlank after = true) (hd : InWord d)
    (ds : List Char) :
    tidy (c :: (before ++ (separator ++ (after ++ d :: ds)))) =
      c :: (separator ++ tidy (d :: ds)) := by
  obtain ⟨rest, hrest⟩ := squeeze_eq_cons hd.notBlank ds
  have hcolon : isBlank ':' = false := by decide
  have hsqueeze : squeeze (separator ++ (after ++ d :: ds)) =
      separator ++ (squash after ++ d :: rest) := by
    have hfirst := @squeeze_cons ':' [] (':' :: (after ++ d :: ds)) hcolon rfl
      (by simpa using hcolon)
    have hsecond := @squeeze_cons ':' after (d :: ds) hcolon hafter (by simpa using hd.notBlank)
    rw [hsecond, hrest] at hfirst
    exact hfirst
  have hall : squeeze (c :: (before ++ (separator ++ (after ++ d :: ds)))) =
      c :: (squash before ++ (separator ++ (squash after ++ d :: rest))) := by
    rw [squeeze_cons hc.notBlank hbefore (by simpa [separator] using hcolon), hsqueeze]
    rfl
  rw [tidy_eq, hall, tightenAfter_cons_of_ne hc.notColon, tightenBefore_cons_of_ne hc.ne_space,
    tightenAfter_squash, tightenAfter_separator hd, tightenBefore_separator, tidy_eq, hrest]

/-- Tidying makes `tidied` of a text that starts and ends with a word, whatever words follow. -/
structure Tidies (text tidied : List Char) : Prop where
  starts : ∃ c cs, text = c :: cs ∧ InWord c
  tidy_append {gap rest : List Char} (hgap : allBlank gap = true) (hrest : Opens rest) :
    tidy (text ++ (gap ++ rest)) = tidied ++ (squashBefore rest gap ++ tidy rest)

theorem Tidies.opens {text tidied : List Char} (h : Tidies text tidied) (more : List Char) :
    Opens (text ++ more) := by
  obtain ⟨c, cs, rfl, hc⟩ := h.starts
  rintro d ⟨⟩
  exact hc

theorem Tidies.squashBefore_eq {text tidied : List Char} (h : Tidies text tidied)
    (more gap : List Char) : squashBefore (text ++ more) gap = squash gap := by
  obtain ⟨c, cs, rfl, -⟩ := h.starts
  rfl

theorem tidies_singleton {c : Char} (hc : InWord c) : Tidies [c] [c] :=
  ⟨⟨c, [], rfl, hc⟩, tidy_cons hc⟩

theorem Tidies.cons {c : Char} {cs cs' : List Char} (hc : InWord c) (h : Tidies cs cs') :
    Tidies (c :: cs) (c :: cs') := by
  refine ⟨⟨c, cs, rfl, hc⟩, ?_⟩
  intro gap rest hgap hrest
  have hfirst := @tidy_cons c [] (cs ++ (gap ++ rest)) hc rfl (h.opens (gap ++ rest))
  rw [h.squashBefore_eq, h.tidy_append hgap hrest] at hfirst
  exact hfirst

theorem tidies_word {word : List Char} (hne : word ≠ []) (h : ∀ c ∈ word, InWord c) :
    Tidies word word := by
  induction word with
  | nil => exact absurd rfl hne
  | cons c cs ih =>
      obtain ⟨hc, hcs⟩ := List.forall_mem_cons.mp h
      cases cs with
      | nil => exact tidies_singleton hc
      | cons d ds => exact .cons hc (ih (List.cons_ne_nil _ _) hcs)

theorem Tidies.append {xs xs' gap ys ys' : List Char} (hxs : Tidies xs xs')
    (hgap : allBlank gap = true) (hys : Tidies ys ys') :
    Tidies (xs ++ (gap ++ ys)) (xs' ++ (squash gap ++ ys')) := by
  constructor
  · obtain ⟨c, cs, rfl, hc⟩ := hxs.starts
    exact ⟨c, _, rfl, hc⟩
  · intro after rest hafter hrest
    have hall := hxs.tidy_append hgap (hys.opens (after ++ rest))
    rw [hys.squashBefore_eq, hys.tidy_append hafter hrest] at hall
    simpa using hall

/-- A word, a separator and a text after it. -/
theorem Tidies.separated {word before after ys ys' : List Char} (hne : word ≠ [])
    (hword : ∀ c ∈ word, InWord c) (hbefore : allBlank before = true)
    (hafter : allBlank after = true) (hys : Tidies ys ys') :
    Tidies (word ++ (before ++ (separator ++ (after ++ ys)))) (word ++ (separator ++ ys')) := by
  induction word with
  | nil => exact absurd rfl hne
  | cons c cs ih =>
      obtain ⟨hc, hcs⟩ := List.forall_mem_cons.mp hword
      cases cs with
      | nil =>
          refine ⟨⟨c, _, rfl, hc⟩, ?_⟩
          intro gap rest hgap hrest
          obtain ⟨d, ds, rfl, hd⟩ := hys.starts
          have hall := tidy_separator hc hbefore hafter hd (ds ++ (gap ++ rest))
          have htail : tidy (d :: (ds ++ (gap ++ rest))) = _ := hys.tidy_append hgap hrest
          rw [htail] at hall
          simpa using hall
      | cons d ds => exact .cons hc (ih (List.cons_ne_nil _ _) hcs)

/-- White space around the whole text goes. -/
theorem Tidies.tidy_between {text tidied before after : List Char} (h : Tidies text tidied)
    (hbefore : allBlank before = true) (hafter : allBlank after = true) :
    tidy (before ++ (text ++ after)) = tidied := by
  have hstart : tidy (before ++ (text ++ after)) = tidy (text ++ after) := by
    rw [tidy, words_blank_append hbefore, tidy]
  have hnil : Opens [] := nofun
  rw [hstart, ← List.append_nil after, h.tidy_append hafter hnil]
  exact List.append_nil tidied

end Precis.Rust
