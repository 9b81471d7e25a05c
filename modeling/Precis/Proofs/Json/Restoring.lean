import Precis.Json.Decode
import Precis.Proofs.Json.Scanning
import Mathlib.Algebra.Order.Group.Nat

/-! # Decoders that undo an encoding

A value is within a depth if it nests no deeper and all its numbers are indices. Such a value can be
kept for later, and a decoder built from the combinators for single values, lists and records
restores what was encoded as such a value, member by member. -/

namespace Precis.Json

/-! ## Values within a depth -/

mutual

/-- How deeply arrays and objects nest in a value. -/
def Value.depth : Value → Nat
  | .null | .bool _ | .num _ | .str _ => 0
  | .arr items => depthItems items + 1
  | .obj members => depthMembers members + 1

def depthItems : List Value → Nat
  | [] => 0
  | item :: rest => max item.depth (depthItems rest)

def depthMembers : List (String × Value) → Nat
  | [] => 0
  | (_, value) :: rest => max value.depth (depthMembers rest)

end

mutual

/-- Every number in a value is an index. -/
def Value.Indexed : Value → Prop
  | .null | .bool _ | .str _ => True
  | .num n => n < indexBound
  | .arr items => IndexedItems items
  | .obj members => IndexedMembers members

def IndexedItems : List Value → Prop
  | [] => True
  | item :: rest => item.Indexed ∧ IndexedItems rest

def IndexedMembers : List (String × Value) → Prop
  | [] => True
  | (_, value) :: rest => value.Indexed ∧ IndexedMembers rest

end

theorem depthItems_le {items : List Value} {d : Nat} :
    depthItems items ≤ d ↔ ∀ v ∈ items, v.depth ≤ d := by
  induction items with
  | nil => simp [depthItems]
  | cons item rest ih => simp [depthItems, ih]

theorem depthMembers_le {members : List (String × Value)} {d : Nat} :
    depthMembers members ≤ d ↔ ∀ m ∈ members, m.2.depth ≤ d := by
  induction members with
  | nil => simp [depthMembers]
  | cons member rest ih => simp [depthMembers, ih]

theorem indexedItems_iff {items : List Value} :
    IndexedItems items ↔ ∀ v ∈ items, v.Indexed := by
  induction items with
  | nil => simp [IndexedItems]
  | cons item rest ih => simp [IndexedItems, ih]

theorem indexedMembers_iff {members : List (String × Value)} :
    IndexedMembers members ↔ ∀ m ∈ members, m.2.Indexed := by
  induction members with
  | nil => simp [IndexedMembers]
  | cons member rest ih => simp [IndexedMembers, ih]

/-- A value that nests at most `d` deep and whose numbers are indices. -/
structure Value.Within (d : Nat) (v : Value) : Prop where
  depth : v.depth ≤ d
  indexed : v.Indexed

theorem within_num {d n : Nat} : (Value.num n).Within d ↔ n < indexBound :=
  ⟨fun h => h.indexed, fun h => ⟨Nat.zero_le d, h⟩⟩

theorem within_arr {d : Nat} {items : List Value} :
    (Value.arr items).Within d ↔ 0 < d ∧ ∀ v ∈ items, v.Within (d - 1) := by
  constructor
  · rintro ⟨hdepth, hindexed⟩
    rw [Value.depth] at hdepth
    rw [Value.Indexed, indexedItems_iff] at hindexed
    have hitems := depthItems_le.mp (Nat.le_sub_one_of_lt hdepth)
    exact ⟨by omega, fun v hv => ⟨hitems v hv, hindexed v hv⟩⟩
  · rintro ⟨hd, h⟩
    have hdepth := depthItems_le.mpr fun v hv => (h v hv).depth
    refine ⟨?_, indexedItems_iff.mpr fun v hv => (h v hv).indexed⟩
    rw [Value.depth]
    omega

theorem within_obj {d : Nat} {members : List (String × Value)} :
    (Value.obj members).Within d ↔ 0 < d ∧ ∀ m ∈ members, m.2.Within (d - 1) := by
  constructor
  · rintro ⟨hdepth, hindexed⟩
    rw [Value.depth] at hdepth
    rw [Value.Indexed, indexedMembers_iff] at hindexed
    have hmembers := depthMembers_le.mp (Nat.le_sub_one_of_lt hdepth)
    exact ⟨by omega, fun m hm => ⟨hmembers m hm, hindexed m hm⟩⟩
  · rintro ⟨hd, h⟩
    have hdepth := depthMembers_le.mpr fun m hm => (h m hm).depth
    refine ⟨?_, indexedMembers_iff.mpr fun m hm => (h m hm).indexed⟩
    rw [Value.depth]
    omega

/-! ## Keeping values for later -/

theorem le_foldl_digits (n : Nat) (ds : List Char) :
    n ≤ ds.foldl (fun n c => n * 10 + digitValue c) n := by
  induction ds generalizing n with
  | nil => exact Nat.le_refl n
  | cons c ds ih =>
      have hstep := ih (n * 10 + digitValue c)
      rw [List.foldl_cons]
      omega

/-- Digits that stand for an index are all taken up. -/
theorem takeWhole_go {n : Nat} {ds : List Char}
    (h : ds.foldl (fun n c => n * 10 + digitValue c) n < indexBound) :
    Numeral.takeWhole.go n ds = (ds.foldl (fun n c => n * 10 + digitValue c) n, 0) := by
  induction ds generalizing n with
  | nil => rfl
  | cons c ds ih =>
      rw [List.foldl_cons] at h ⊢
      have hstep := le_foldl_digits (n * 10 + digitValue c) ds
      rw [Numeral.takeWhole.go, if_pos (by omega), ih h]

theorem scaled_decimal {n : Nat} (h : n < indexBound) :
    Numeral.scaled ⟨false, decimal n, none, none⟩ = (n, 0) := by
  have hvalue := ofDigits_decimal n
  rw [ofDigits] at hvalue
  have hwhole : Numeral.takeWhole (decimal n) = (n, 0) := by
    rw [Numeral.takeWhole, takeWhole_go (by rwa [hvalue]), hvalue]
  simp [Numeral.scaled, hwhole, Numeral.takeFraction]

/-- Rounding at most doubles a number. -/
theorem roundBits_le (n : Nat) : Numeral.roundBits n ≤ 2 * n := by
  simp only [Numeral.roundBits]
  split_ifs with hsmall
  · omega
  · have hpos : n ≠ 0 := by
      rintro rfl
      exact hsmall (by decide)
    have hunit : Nat.pow 2 (n.log2 - 52) ≤ n :=
      (Nat.pow_le_pow_right (by decide) (Nat.sub_le _ _)).trans (Nat.log2_self_le hpos)
    have hquotient := Nat.div_mul_le_self n (Nat.pow 2 (n.log2 - 52))
    rw [Nat.add_mul, Nat.one_mul]
    omega
  · exact (Nat.div_mul_le_self n _).trans (by omega)

theorem pow_le_pow_sub_pow {a b c : Nat} (hab : a ≤ b) (hbc : b < c) :
    Nat.pow 2 a ≤ Nat.pow 2 c - Nat.pow 2 b := by
  have hsmall : 2 ^ a ≤ 2 ^ b := Nat.pow_le_pow_right (by decide) hab
  have hlarge : 2 ^ (b + 1) ≤ 2 ^ c := Nat.pow_le_pow_right (by decide) hbc
  rw [Nat.pow_succ'] at hlarge
  simp only [Nat.pow_eq]
  omega

theorem double_indexBound_le : 2 * indexBound ≤ Numeral.overflowBound :=
  calc
    2 * indexBound = Nat.pow 2 65 := by decide
    _ ≤ Numeral.overflowBound := by
      unfold Numeral.overflowBound
      apply pow_le_pow_sub_pow <;> decide

theorem representable_decimal {n : Nat} (h : n < indexBound) :
    Numeral.representable ⟨false, decimal n, none, none⟩ = true := by
  rw [Numeral.representable, scaled_decimal h]
  split
  · rfl
  · rename_i digits e _ heq
    obtain ⟨rfl, he⟩ := Prod.mk.inj heq
    obtain rfl : e = 0 := (Int.ofNat.inj he).symm
    have hdouble := roundBits_le n
    have hbound := double_indexBound_le
    have hone : Numeral.roundBits (Nat.pow 10 0) = 1 := by decide
    simp only [hone, Nat.mul_one, Bool.and_eq_true, decide_eq_true_eq]
    omega
  · rfl

theorem wholeItems_eq_true {items : List Reading} :
    wholeItems items = true ↔ ∀ item ∈ items, item.whole = true := by
  induction items with
  | nil => simp [wholeItems]
  | cons item rest ih => simp [wholeItems, ih]

theorem wholeMembers_eq_true {members : List (Option String × Reading)} :
    wholeMembers members = true ↔ ∀ m ∈ members, m.2.whole = true := by
  induction members with
  | nil => simp [wholeMembers]
  | cons member rest ih => simp [wholeMembers, ih]

theorem storableItems_eq_true {depth : Nat} {items : List Reading} :
    storableItems depth items = true ↔ ∀ item ∈ items, item.storable depth = true := by
  induction items with
  | nil => simp [storableItems]
  | cons item rest ih => simp [storableItems, ih]

theorem storableMembers_eq_true {depth : Nat} {members : List (Option String × Reading)} :
    storableMembers depth members = true ↔
      ∀ m ∈ members, m.1.isSome = true ∧ m.2.storable depth = true := by
  induction members with
  | nil => simp [storableMembers]
  | cons member rest ih => simp [storableMembers, ih]

/-- A value within the depth can be kept for later. -/
theorem Value.Within.storable {v : Value} {depth : Nat} (h : v.Within depth) :
    v.reading.storable depth = true := by
  induction v using Value.valueInduction generalizing depth with
  | null | bool b | str s => rfl
  | num n => exact representable_decimal (within_num.mp h)
  | arr items ih =>
      obtain ⟨hdepth, hitems⟩ := within_arr.mp h
      have hkept : storableItems (depth - 1) (readingItems items) = true := by
        rw [readingItems_eq_map, storableItems_eq_true, List.forall_mem_map]
        exact fun v hv => ih v hv (hitems v hv)
      simp [Value.reading, Reading.storable, hdepth, hkept]
  | obj members ih =>
      obtain ⟨hdepth, hmembers⟩ := within_obj.mp h
      have hkept : storableMembers (depth - 1) (readingMembers members) = true := by
        rw [readingMembers_eq_map, storableMembers_eq_true, List.forall_mem_map]
        exact fun m hm => ⟨rfl, ih m hm (hmembers m hm)⟩
      simp [Value.reading, Reading.storable, hdepth, hkept]

/-! ## Single values -/

section Restores

variable {α β : Type} {depth : Nat}

/-- The decoder gives back what was encoded as a value within the depth. -/
def Restores (depth : Nat) (decode : Reading → Except Fault α) (encode : α → Value) : Prop :=
  ∀ a, (encode a).Within depth → decode (encode a).reading = .ok a

theorem restores_asText : Restores depth (asText depth) .str :=
  fun _ _ => rfl

theorem restores_asFlag : Restores depth (asFlag depth) .bool :=
  fun _ _ => rfl

theorem restores_asIndex : Restores depth (asIndex depth) .num := by
  intro n h
  have hindex : Numeral.toIndex? ⟨false, decimal n, none, none⟩ = some n := by
    simp [Numeral.toIndex?, ofDigits_decimal, within_num.mp h]
  simp only [Value.reading, asIndex, hindex]

theorem restores_asChoice {choices : List (String × α)} {id : α → String}
    (h : ∀ a, choices.lookup (id a) = some a) (stage : Stage) :
    Restores depth (asChoice choices stage depth) fun a => .str (id a) := by
  intro a _
  simp only [Value.reading, asChoice, chosen, h a]

theorem decodeItems_eq {decode : Reading → Except Fault α} {encode : α → Value} {as : List α}
    (h : ∀ a ∈ as, decode (encode a).reading = .ok a) :
    decodeItems decode (readingItems (as.map encode)) = .ok as := by
  induction as with
  | nil => rfl
  | cons a as ih =>
      obtain ⟨hfirst, hrest⟩ := List.forall_mem_cons.mp h
      simp only [List.map_cons, readingItems, decodeItems, hfirst, ih hrest]
      rfl

theorem restores_asList {decode : Decoder α} {encode : α → Value}
    (h : ∀ d < depth, Restores d (decode d) encode) :
    Restores depth (asList decode depth) fun as => .arr (as.map encode) := by
  intro as hwithin
  obtain ⟨hdepth, hitems⟩ := within_arr.mp hwithin
  cases depth with
  | zero => exact absurd hdepth (Nat.lt_irrefl 0)
  | succ d =>
      have hdecoded : decodeItems (decode d) (readingItems (as.map encode)) = .ok as :=
        decodeItems_eq fun a ha => h d d.lt_succ_self a (hitems _ (List.mem_map_of_mem ha))
      simp only [Value.reading, asList, arrayOf, hdecoded]
      rfl

end Restores

end Precis.Json
