import Precis.Frontend.Rust
import Precis.Proofs.Text.Cutting
import Precis.Proofs.Types.Brackets

/-! # Names of types from their spellings

The name of the type that an `impl` block is for is cut out of its spelling: the last segment of
the path in front of the first type argument, without references. It is empty exactly if nothing
stands between the last separator, or the start, and the first `<` but references. -/

namespace Precis

namespace Rust

open Text

/-- A text that is empty or ends in a path separator. -/
def IsPathStart (path : List Char) : Prop :=
  path = [] ∨ separator <:+ path

/-- In front of its first `<`, a text consists of the start of a path and references. -/
def Nameless (cs : List Char) : Prop :=
  ∃ path references, trim (cs.takeWhile (· != '<')) = path ++ references ∧ IsPathStart path ∧
    ∀ c ∈ references, c = '&'

/-- Only references follow the last separator exactly if a text is the start of a path and
references. -/
theorem references_afterLast_iff (cs : List Char) :
    (∀ c ∈ afterLast separator cs, c = '&') ↔
      ∃ path references, cs = path ++ references ∧ IsPathStart path ∧
        ∀ c ∈ references, c = '&' := by
  constructor
  · intro h
    unfold afterLast at h
    split at h
    · rename_i parts hparts
      have hcs := append_of_splitLast? hparts
      rw [← List.append_assoc] at hcs
      exact ⟨_, _, hcs, .inr (List.suffix_append _ _), h⟩
    · exact ⟨[], cs, rfl, .inl rfl, h⟩
  · rintro ⟨path, references, rfl, hpath, hreferences⟩
    have hcolon : ':' ∉ references := by
      intro hmem
      exact absurd (hreferences ':' hmem) (by decide)
    have hafter : afterLast separator (path ++ references) = references := by
      rcases hpath with rfl | ⟨start, rfl⟩
      · have hnone : splitLast? separator references = none :=
          @splitLast?_eq_none ':' [':'] _ hcolon
        simp only [afterLast, List.nil_append, hnone]
      · have hsome : splitLast? separator (start ++ separator ++ references) =
            some (start, references) := by
          rw [List.append_assoc]
          exact @splitLast?_append ':' [':'] start _ hcolon
        simp only [afterLast, hsome]
    rw [hafter]
    exact hreferences

/-- A text that ends where a trimmed text ends is not blank at its end. -/
theorem eq_nil_of_suffix_trim {cs ending : List Char} (h : ending <:+ trim cs)
    (hblank : allBlank ending = true) : ending = [] := by
  cases hall : allBlank cs with
  | true =>
      rw [trim_eq_nil_iff.mpr hall] at h
      exact List.suffix_nil.mp h
  | false =>
      obtain ⟨front, c, hlast, hc⟩ := (tight_trim hall).last
      cases ending using List.reverseRecOn with
      | nil => rfl
      | append_singleton ending d =>
          obtain ⟨start, hstart⟩ := h
          rw [hlast, ← List.append_assoc] at hstart
          obtain ⟨-, hd⟩ := List.append_inj' hstart rfl
          have hdblank : isBlank d = true :=
            List.all_eq_true.mp hblank d (List.mem_append_right _ (List.mem_singleton_self d))
          rw [List.singleton_inj.mp hd, hc] at hdblank
          cases hdblank

/-- A type has no base name exactly if its spelling is nameless. -/
theorem baseName_eq_nil_iff (cs : List Char) : baseName cs = [] ↔ Nameless cs := by
  rw [baseName, trim_eq_nil_iff, Nameless, ← references_afterLast_iff]
  set segment := afterLast separator (trim (cs.takeWhile (· != '<'))) with hsegment
  constructor
  · intro hblank
    have hsuffix : segment.dropWhile (· == '&') <:+ trim (cs.takeWhile (· != '<')) :=
      (List.dropWhile_suffix _).trans (afterLast_suffix _ _)
    have hnil := eq_nil_of_suffix_trim hsuffix hblank
    simpa using List.dropWhile_eq_nil_iff.mp hnil
  · intro hreferences
    rw [List.dropWhile_eq_nil_iff.mpr (by simpa using hreferences)]
    rfl

end Rust

end Precis
