import Precis.Faults
import Precis.Proofs.Text.Bytes

/-! # What a report quotes

The report of a faulty node quotes the first line of its text. A line of more than 80 bytes is cut
after the last character that ends within them, which is found by stepping back from byte 80. -/

namespace Precis

namespace Text

/-! ## Texts of nodes -/

/-- The part of a text that two offsets enclose; nothing if a character goes on at one of them, if
they are in the wrong order or if the text ends before them. -/
inductive Encloses (cs : List Char) (start stop : Nat) : List Char → Prop where
  | part (before part after : List Char) (htext : cs = before ++ (part ++ after))
      (hstart : (encode before).length = start)
      (hstop : (encode (before ++ part)).length = stop) : Encloses cs start stop part
  | nothing (h : ∀ before part after, cs = before ++ (part ++ after) →
      ¬((encode before).length = start ∧ (encode (before ++ part)).length = stop)) :
      Encloses cs start stop []

theorem encloses_slice? (cs : List Char) (start stop : Nat) :
    Encloses cs start stop ((slice? start stop cs).getD []) := by
  cases hslice : slice? start stop cs with
  | some part =>
      obtain ⟨before, after, htext, hstart, hstop⟩ := slice?_eq_some_iff.mp hslice
      rw [← length_encode] at hstart hstop
      exact .part before part after htext hstart hstop
  | none =>
      apply Encloses.nothing
      rintro before part after htext ⟨hstart, hstop⟩
      rw [length_encode] at hstart hstop
      rw [slice?_eq_some_iff.mpr ⟨before, after, htext, hstart, hstop⟩] at hslice
      cases hslice

/-! ## First lines -/

/-- The first line of a text: all of it if there is no line feed, and else what precedes the first
one, without a carriage return right before it. -/
inductive FirstLine : List Char → List Char → Prop where
  | only {line : List Char} (h : '\n' ∉ line) : FirstLine line line
  | feed {line : List Char} (rest : List Char) (h : '\n' ∉ line)
      (hreturn : line.getLast? ≠ some '\r') : FirstLine (line ++ '\n' :: rest) line
  | returnFeed {line : List Char} (rest : List Char) (h : '\n' ∉ line) :
      FirstLine (line ++ '\r' :: '\n' :: rest) line

theorem FirstLine.cons {c : Char} {cs line : List Char} (h : FirstLine cs line) (hc : c ≠ '\n')
    (hreturn : c = '\r' → ∀ rest, cs ≠ '\n' :: rest) : FirstLine (c :: cs) (c :: line) := by
  have hmem : ∀ {xs : List Char}, '\n' ∉ xs → '\n' ∉ c :: xs := by
    intro xs hxs
    simp [hxs, Ne.symm hc]
  cases h with
  | only h => exact .only (hmem h)
  | feed rest h hlast =>
      refine .feed rest (hmem h) ?_
      cases line with
      | nil =>
          intro heq
          exact hreturn (Option.some.inj heq) rest rfl
      | cons d line => rwa [List.getLast?_cons_cons]
  | returnFeed rest h => exact .returnFeed rest (hmem h)

theorem firstLine_lines (cs : List Char) : FirstLine cs ((lines cs).headD []) := by
  fun_induction lines cs with
  | case1 => exact .only List.not_mem_nil
  | case2 cs ih => exact @FirstLine.feed [] cs List.not_mem_nil nofun
  | case3 cs ih => exact @FirstLine.returnFeed [] cs List.not_mem_nil
  | case4 c cs hfeed hreturn hlines ih =>
      rw [hlines] at ih
      exact ih.cons hfeed fun hc rest heq => hreturn rest hc heq
  | case5 c cs hfeed hreturn line rest hlines ih =>
      rw [hlines] at ih
      exact ih.cons hfeed fun hc rest heq => hreturn rest hc heq

end Text

/-! ## Excerpts -/

open Text

/-- The report of a node quotes the first line of its text, without the white space around the text.
A line of at most 80 bytes is quoted as it is. Of a longer one the longest beginning within 80 bytes
is quoted, followed by three dots; the byte at which it ends is found by at most three steps back
from byte 80. -/
theorem excerpt_longest (source : List Char) (t : ParseTree) :
    ∃ part line, Encloses source t.start t.stop part ∧ FirstLine (trim part) line ∧
      ((encode line).length ≤ 80 ∧ excerpt (t.text source) = line ∨
        80 < (encode line).length ∧ ∃ front steps,
          excerpt (t.text source) = front ++ ['.', '.', '.'] ∧ LongestWithin 80 line front ∧
          BacksOff (encode line) 80 steps (encode front).length ∧ steps ≤ 3) := by
  refine ⟨t.text source, (lines (trim (t.text source))).headD [],
    encloses_slice? source t.start t.stop, firstLine_lines _, ?_⟩
  unfold excerpt
  dsimp only
  generalize (lines (trim (t.text source))).headD [] = line
  rw [length_encode]
  by_cases hshort : byteLength line ≤ excerptLimit
  · rw [if_pos hshort]
    exact .inl ⟨hshort, rfl⟩
  · obtain ⟨front, htake, hlongest⟩ := exists_takeBytes?_boundaryBefore line excerptLimit
    have hlength : (encode front).length = boundaryBefore line excerptLimit := by
      rw [length_encode]
      exact (takeBytes?_eq_some_iff.mp htake).2
    have hback : excerptLimit ≤ boundaryBefore line excerptLimit + 3 :=
      le_boundaryBefore_add (Nat.le_of_not_le hshort)
    rw [if_neg hshort, htake]
    refine .inr ⟨Nat.lt_of_not_le hshort, front, _, rfl, hlongest,
      hlength ▸ backsOff_boundaryBefore line excerptLimit, ?_⟩
    omega

-- Of a character that starts with the last of the 80 bytes nothing is quoted.
example : excerpt (List.replicate 79 'a' ++ ['é', 'b']) =
    List.replicate 79 'a' ++ ['.', '.', '.'] := by
  decide

end Precis
