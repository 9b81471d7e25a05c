import Precis.Text.Utf8
import Mathlib.Data.List.Infix

/-! # Where characters end

Offsets into a text count the bytes of its UTF-8 form. A character ends at those offsets that are
the length of a beginning of the text, and they can be told from the bytes alone: at any other
offset stands a byte that goes on with a character. No character has more than four bytes, so that
at most three steps back lead from any offset within the text to such an end. -/

namespace Precis.Text

variable {n start stop : Nat} {c : Char} {cs front rest : List Char}

/-! ## Lengths -/

theorem byteLength_append (xs ys : List Char) :
    byteLength (xs ++ ys) = byteLength xs + byteLength ys := by
  induction xs with
  | nil => rw [List.nil_append, byteLength, Nat.zero_add]
  | cons c xs ih => rw [List.cons_append, byteLength, byteLength, ih, Nat.add_assoc]

theorem encode_cons (c : Char) (cs : List Char) :
    encode (c :: cs) = String.utf8EncodeChar c ++ encode cs :=
  List.flatMap_cons

theorem length_encode (cs : List Char) : (encode cs).length = byteLength cs := by
  induction cs with
  | nil => rfl
  | cons c cs ih =>
      rw [encode_cons, List.length_append, String.length_utf8EncodeChar, ih, byteLength]

theorem eq_nil_of_byteLength (h : byteLength cs = 0) : cs = [] := by
  cases cs with
  | nil => rfl
  | cons c cs =>
      have := c.utf8Size_pos
      rw [byteLength] at h
      omega

/-- Of two beginnings of a text, the one with fewer bytes is a beginning of the other. -/
theorem prefix_of_byteLength_le {xs ys : List Char} (hxs : xs <+: cs) (hys : ys <+: cs)
    (h : byteLength xs ≤ byteLength ys) : xs <+: ys := by
  rcases List.prefix_or_prefix_of_prefix hxs hys with hbegins | ⟨tail, rfl⟩
  · exact hbegins
  · rw [byteLength_append] at h
    rw [eq_nil_of_byteLength (by omega : byteLength tail = 0), List.append_nil]

/-! ## Cutting at an offset -/

theorem dropBytes?_cons_of_le (h : c.utf8Size ≤ n) :
    dropBytes? n (c :: cs) = dropBytes? (n - c.utf8Size) cs := by
  cases n with
  | zero => exact absurd h (Nat.not_le_of_lt c.utf8Size_pos)
  | succ n => rw [dropBytes?, if_pos h]

theorem takeBytes?_cons_of_le (h : c.utf8Size ≤ n) :
    takeBytes? n (c :: cs) = (takeBytes? (n - c.utf8Size) cs).map (c :: ·) := by
  cases n with
  | zero => exact absurd h (Nat.not_le_of_lt c.utf8Size_pos)
  | succ n => rw [takeBytes?, if_pos h]

theorem dropBytes?_append (front rest : List Char) :
    dropBytes? (byteLength front) (front ++ rest) = some rest := by
  induction front with
  | nil => rw [byteLength, List.nil_append, dropBytes?]
  | cons c front ih =>
      rw [byteLength, List.cons_append, dropBytes?_cons_of_le (Nat.le_add_right _ _),
        Nat.add_sub_cancel_left, ih]

/-- What is left behind an offset is a text whose beginning ends there. -/
theorem dropBytes?_eq_some_iff :
    dropBytes? n cs = some rest ↔ ∃ front, cs = front ++ rest ∧ byteLength front = n := by
  constructor
  · intro h
    fun_induction dropBytes? n cs with
    | case1 cs =>
        obtain rfl := Option.some.inj h
        exact ⟨[], rfl, rfl⟩
    | case2 n => cases h
    | case3 n c cs hsize ih =>
        obtain ⟨front, rfl, hfront⟩ := ih h
        refine ⟨c :: front, rfl, ?_⟩
        rw [byteLength, hfront]
        omega
    | case4 n c cs hsize => cases h
  · rintro ⟨front, rfl, rfl⟩
    exact dropBytes?_append front rest

theorem takeBytes?_append (front rest : List Char) :
    takeBytes? (byteLength front) (front ++ rest) = some front := by
  induction front with
  | nil => rw [byteLength, takeBytes?]
  | cons c front ih =>
      rw [byteLength, List.cons_append, takeBytes?_cons_of_le (Nat.le_add_right _ _),
        Nat.add_sub_cancel_left, ih, Option.map_some]

/-- What is taken up to an offset is the beginning that ends there. -/
theorem takeBytes?_eq_some_iff :
    takeBytes? n cs = some front ↔ front <+: cs ∧ byteLength front = n := by
  constructor
  · intro h
    fun_induction takeBytes? n cs generalizing front with
    | case1 cs =>
        obtain rfl := Option.some.inj h
        exact ⟨List.prefix_append [] cs, rfl⟩
    | case2 n => cases h
    | case3 n c cs hsize ih =>
        obtain ⟨tail, htail, rfl⟩ := Option.map_eq_some_iff.mp h
        obtain ⟨hbegins, hlength⟩ := ih htail
        refine ⟨(List.prefix_cons_inj c).mpr hbegins, ?_⟩
        rw [byteLength, hlength]
        omega
    | case4 n c cs hsize => cases h
  · rintro ⟨⟨rest, rfl⟩, rfl⟩
    exact takeBytes?_append front rest

/-- A slice is the part of the text that stands between two offsets. -/
theorem slice?_eq_some_iff {part : List Char} :
    slice? start stop cs = some part ↔ ∃ before after, cs = before ++ (part ++ after) ∧
      byteLength before = start ∧ byteLength (before ++ part) = stop := by
  unfold slice?
  constructor
  · intro h
    split at h
    · obtain ⟨rest, hrest, hpart⟩ := Option.bind_eq_some_iff.mp h
      obtain ⟨before, rfl, hbefore⟩ := dropBytes?_eq_some_iff.mp hrest
      obtain ⟨⟨after, rfl⟩, hlength⟩ := takeBytes?_eq_some_iff.mp hpart
      refine ⟨before, after, rfl, hbefore, ?_⟩
      rw [byteLength_append]
      omega
    · cases h
  · rintro ⟨before, after, rfl, rfl, rfl⟩
    rw [byteLength_append, if_pos (Nat.le_add_right _ _), dropBytes?_append, Option.bind_some,
      Nat.add_sub_cancel_left, takeBytes?_append]

/-! ## Boundaries -/

/-- A character ends at the lengths of the beginnings of a text. -/
theorem isBoundary_iff : isBoundary cs n = true ↔ ∃ front, front <+: cs ∧ byteLength front = n := by
  rw [isBoundary, Option.isSome_iff_exists]
  constructor
  · rintro ⟨rest, hrest⟩
    obtain ⟨front, rfl, hfront⟩ := dropBytes?_eq_some_iff.mp hrest
    exact ⟨front, List.prefix_append front rest, hfront⟩
  · rintro ⟨front, ⟨rest, rfl⟩, hfront⟩
    exact ⟨rest, dropBytes?_eq_some_iff.mpr ⟨front, rfl, hfront⟩⟩

theorem isBoundary_zero (cs : List Char) : isBoundary cs 0 = true :=
  isBoundary_iff.mpr ⟨[], List.prefix_append [] cs, rfl⟩

/-- A byte that goes on with a character. -/
def isContinuation (b : UInt8) : Bool :=
  0x80 ≤ b && b < 0xC0

/-- Whether a byte that does not go on with a character stands at an offset, or the bytes end
there. -/
def startsChar (bytes : List UInt8) (n : Nat) : Bool :=
  match bytes[n]? with
  | some b => !isContinuation b
  | none => n == bytes.length

theorem isContinuation_ofNat {v : Nat} (h : v < 256) :
    isContinuation (UInt8.ofNat v) = (decide (0x80 ≤ v) && decide (v < 0xC0)) := by
  have hv : (UInt8.ofNat v).toNat = v := UInt8.toNat_ofNat_of_lt h
  simp only [isContinuation, UInt8.le_iff_toNat_le, UInt8.lt_iff_toNat_lt, hv]
  rfl

/-- A byte with six further bits of a character goes on with it. -/
theorem isContinuation_sextet (v : Nat) :
    isContinuation (UInt8.ofNat (v % 64 + 128)) = true := by
  rw [isContinuation_ofNat (by omega), Bool.and_eq_true, decide_eq_true_iff, decide_eq_true_iff]
  omega

theorem isContinuation_lead {v : Nat} (h : v < 256) (hlead : v < 0x80 ∨ 0xC0 ≤ v) :
    isContinuation (UInt8.ofNat v) = false := by
  rw [isContinuation_ofNat h, Bool.and_eq_false_iff, decide_eq_false_iff_not,
    decide_eq_false_iff_not]
  omega

/-- A character has one byte that starts it; all others go on with it. -/
theorem utf8EncodeChar_eq (c : Char) :
    ∃ lead more, String.utf8EncodeChar c = lead :: more ∧ isContinuation lead = false ∧
      ∀ b ∈ more, isContinuation b = true := by
  unfold String.utf8EncodeChar
  dsimp only
  split_ifs
  all_goals
    refine ⟨_, _, rfl, isContinuation_lead (by omega) (by omega), ?_⟩
    simp only [List.forall_mem_cons, List.not_mem_nil, isContinuation_sextet, false_implies,
      implies_true, and_true]

theorem startsChar_append {front bytes : List UInt8} (h : front.length ≤ n) :
    startsChar (front ++ bytes) n = startsChar bytes (n - front.length) := by
  unfold startsChar
  rw [List.getElem?_append_right h]
  split
  · rfl
  · rw [List.length_append, Bool.eq_iff_iff, beq_iff_eq, beq_iff_eq]
    omega

/-- The boundaries can be told from the bytes. -/
theorem isBoundary_eq_startsChar (cs : List Char) (n : Nat) :
    isBoundary cs n = startsChar (encode cs) n := by
  induction cs generalizing n with
  | nil => cases n <;> rfl
  | cons c cs ih =>
      obtain ⟨lead, more, hbytes, hlead, hmore⟩ := utf8EncodeChar_eq c
      have hlength : (String.utf8EncodeChar c).length = c.utf8Size :=
        String.length_utf8EncodeChar c
      rw [encode_cons]
      rcases Nat.lt_or_ge n c.utf8Size with hlt | hge
      · cases n with
        | zero => simp [isBoundary, dropBytes?, startsChar, hbytes, hlead]
        | succ n =>
            have hbyte : n < more.length := by
              rw [← hlength, hbytes, List.length_cons] at hlt
              omega
            have hcontinued := hmore _ (List.getElem_mem hbyte)
            rw [isBoundary, dropBytes?, if_neg (by omega)]
            simp [startsChar, hbytes, List.getElem?_append_left hbyte,
              List.getElem?_eq_getElem hbyte, hcontinued]
      · rw [startsChar_append (hlength ▸ hge), hlength, ← ih, isBoundary, isBoundary,
          dropBytes?_cons_of_le hge]

/-! ## Stepping back to a boundary -/

/-- Going back byte by byte from an offset leads in so many steps to another one, the first on the
way at which no character goes on. There is no step back from the offset zero. -/
inductive BacksOff (bytes : List UInt8) : (offset steps stop : Nat) → Prop where
  | found {offset : Nat} (h : startsChar bytes offset = true) : BacksOff bytes offset 0 offset
  | back {offset steps stop : Nat} (h : startsChar bytes (offset + 1) = false)
      (more : BacksOff bytes offset steps stop) : BacksOff bytes (offset + 1) (steps + 1) stop

theorem boundaryBefore_le (cs : List Char) (n : Nat) : boundaryBefore cs n ≤ n := by
  induction n with
  | zero => rfl
  | succ n ih =>
      rw [boundaryBefore]
      split
      · rfl
      · exact Nat.le_succ_of_le ih

theorem backsOff_boundaryBefore (cs : List Char) (n : Nat) :
    BacksOff (encode cs) n (n - boundaryBefore cs n) (boundaryBefore cs n) := by
  induction n with
  | zero => exact .found (isBoundary_eq_startsChar cs 0 ▸ isBoundary_zero cs)
  | succ n ih =>
      rw [boundaryBefore]
      cases hboundary : isBoundary cs (n + 1) with
      | true =>
          rw [isBoundary_eq_startsChar] at hboundary
          rw [if_pos rfl, Nat.sub_self]
          exact .found hboundary
      | false =>
          rw [isBoundary_eq_startsChar] at hboundary
          rw [if_neg Bool.false_ne_true, Nat.succ_sub (boundaryBefore_le cs n)]
          exact .back hboundary ih

theorem isBoundary_boundaryBefore (cs : List Char) (n : Nat) :
    isBoundary cs (boundaryBefore cs n) = true := by
  induction n with
  | zero => exact isBoundary_zero cs
  | succ n ih =>
      rw [boundaryBefore]
      split
      · assumption
      · exact ih

theorem le_boundaryBefore {m : Nat} (hm : isBoundary cs m = true) (h : m ≤ n) :
    m ≤ boundaryBefore cs n := by
  induction n with
  | zero => exact h
  | succ n ih =>
      rw [boundaryBefore]
      split
      · exact h
      · rename_i hnot
        have hne : m ≠ n + 1 := by
          rintro rfl
          exact hnot hm
        exact ih (by omega)

/-- Within a text, a boundary is at most three bytes back. -/
theorem le_boundaryBefore_add (h : n ≤ byteLength cs) : n ≤ boundaryBefore cs n + 3 := by
  obtain ⟨front, ⟨rest, rfl⟩, hfront⟩ := isBoundary_iff.mp (isBoundary_boundaryBefore cs n)
  cases rest with
  | nil =>
      rw [List.append_nil] at h hfront ⊢
      omega
  | cons c rest =>
      have hsize := c.utf8Size_le_four
      by_contra hfar
      -- The next character would end within the limit as well.
      have hnext : isBoundary (front ++ c :: rest) (byteLength (front ++ [c])) = true :=
        isBoundary_iff.mpr ⟨front ++ [c], ⟨rest, by rw [List.append_assoc]; rfl⟩, rfl⟩
      have hpos := c.utf8Size_pos
      rw [byteLength_append, byteLength, byteLength] at hnext
      have := le_boundaryBefore hnext (by omega : _ ≤ n)
      omega

/-- The longest beginning of a text that has at most so many bytes. -/
structure LongestWithin (limit : Nat) (cs front : List Char) : Prop where
  begins : front <+: cs
  within : (encode front).length ≤ limit
  longest : ∀ other, other <+: cs → (encode other).length ≤ limit → other <+: front

/-- The text up to the last boundary is the longest beginning. -/
theorem exists_takeBytes?_boundaryBefore (cs : List Char) (n : Nat) :
    ∃ front, takeBytes? (boundaryBefore cs n) cs = some front ∧ LongestWithin n cs front := by
  obtain ⟨front, hfront, hlength⟩ := isBoundary_iff.mp (isBoundary_boundaryBefore cs n)
  refine ⟨front, takeBytes?_eq_some_iff.mpr ⟨hfront, hlength⟩, hfront, ?_, ?_⟩
  · rw [length_encode, hlength]
    exact boundaryBefore_le cs n
  · intro other hother hwithin
    rw [length_encode] at hwithin
    apply prefix_of_byteLength_le hother hfront
    rw [hlength]
    exact le_boundaryBefore (isBoundary_iff.mpr ⟨other, hother, rfl⟩) hwithin

end Precis.Text
