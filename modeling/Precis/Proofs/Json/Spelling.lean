import Precis.Json.Reading
import Precis.Json.Value

/-! # Spellings of values

A value is spelled by many texts, which differ in the white space between their tokens. The compact
and the indented form are two of them. -/

namespace Precis.Json

open Scan

/-! ## What is read of a value -/

mutual

/-- What is read of a value. -/
def Value.reading : Value → Reading
  | .null => .null
  | .bool b => .bool b
  | .num n => .num ⟨false, decimal n, none, none⟩
  | .str s => .str (some s)
  | .arr items => .arr (readingItems items) true
  | .obj members => .obj (readingMembers members) true

/-- What is read of array elements. -/
def readingItems : List Value → List Reading
  | [] => []
  | item :: rest => item.reading :: readingItems rest

/-- What is read of object members. -/
def readingMembers : List (String × Value) → List (Option String × Reading)
  | [] => []
  | (key, value) :: rest => (some key, value.reading) :: readingMembers rest

end

theorem readingItems_eq_map (items : List Value) :
    readingItems items = items.map Value.reading := by
  induction items with
  | nil => rfl
  | cons item rest ih => rw [readingItems, ih, List.map_cons]

theorem readingMembers_eq_map (members : List (String × Value)) :
    readingMembers members = members.map fun m => (some m.1, m.2.reading) := by
  induction members with
  | nil => rfl
  | cons member rest ih => rw [readingMembers, ih, List.map_cons]

/-! ## Spellings -/

/-- White space between tokens, which may be empty. -/
def IsGap (cs : List Char) : Prop :=
  ∀ c ∈ cs, isSpace c = true

mutual

/-- The texts of a value, with any white space between the tokens. -/
inductive Spells : Value → List Char → Prop where
  | null : Spells .null (literal none)
  | bool (b : Bool) : Spells (.bool b) (literal (some b))
  | num (n : Nat) : Spells (.num n) (decimal n)
  | str (s : String) : Spells (.str s) (quote s)
  | emptyArr {gap : List Char} (hgap : IsGap gap) : Spells (.arr []) ('[' :: (gap ++ [']']))
  | arr {items : List Value} {text : List Char} (h : SpellsItems items text) :
      Spells (.arr items) ('[' :: (text ++ [']']))
  | emptyObj {gap : List Char} (hgap : IsGap gap) : Spells (.obj []) ('\x7b' :: (gap ++ ['\x7d']))
  | obj {members : List (String × Value)} {text : List Char} (h : SpellsMembers members text) :
      Spells (.obj members) ('\x7b' :: (text ++ ['\x7d']))

/-- The texts of the elements of an array that is not empty. -/
inductive SpellsItems : List Value → List Char → Prop where
  | last {item : Value} {before text after : List Char} (hbefore : IsGap before)
      (h : Spells item text) (hafter : IsGap after) :
      SpellsItems [item] (before ++ (text ++ after))
  | cons {item : Value} {rest : List Value} {before text after others : List Char}
      (hbefore : IsGap before) (h : Spells item text) (hafter : IsGap after)
      (hrest : SpellsItems rest others) :
      SpellsItems (item :: rest) (before ++ (text ++ (after ++ ',' :: others)))

/-- The texts of the members of an object that is not empty. -/
inductive SpellsMembers : List (String × Value) → List Char → Prop where
  | last (key : String) {value : Value} {before colon between text after : List Char}
      (hbefore : IsGap before) (hcolon : IsGap colon) (hbetween : IsGap between)
      (h : Spells value text) (hafter : IsGap after) :
      SpellsMembers [(key, value)]
        (before ++ (quote key ++ (colon ++ ':' :: (between ++ (text ++ after)))))
  | cons (key : String) {value : Value} {rest : List (String × Value)}
      {before colon between text after others : List Char}
      (hbefore : IsGap before) (hcolon : IsGap colon) (hbetween : IsGap between)
      (h : Spells value text) (hafter : IsGap after) (hrest : SpellsMembers rest others) :
      SpellsMembers ((key, value) :: rest)
        (before ++ (quote key ++ (colon ++ ':' :: (between ++ (text ++ (after ++ ',' :: others))))))

end

theorem isGap_nil : IsGap [] := by
  simp [IsGap]

theorem isGap_newLine (depth : Nat) : IsGap (newLine depth) := by
  intro c hc
  rcases List.mem_cons.mp hc with rfl | hc
  · rfl
  · obtain rfl := List.eq_of_mem_replicate hc
    rfl

/-! ## The two printed forms -/

/-- A value is a literal, a number, a string, or made up of other values. -/
@[elab_as_elim]
theorem Value.valueInduction {motive : Value → Prop} (null : motive .null)
    (bool : ∀ b, motive (.bool b)) (num : ∀ n, motive (.num n)) (str : ∀ s, motive (.str s))
    (arr : ∀ items, (∀ v ∈ items, motive v) → motive (.arr items))
    (obj : ∀ members, (∀ m ∈ members, motive m.2) → motive (.obj members)) (v : Value) :
    motive v := by
  refine @Value.rec motive (fun items => ∀ v ∈ items, motive v)
    (fun members => ∀ m ∈ members, motive m.2) (fun m => motive m.2)
    null bool num str arr obj ?_ ?_ ?_ ?_ ?_ v
  · exact List.forall_mem_nil _
  · intro item rest hitem hrest
    exact List.forall_mem_cons.mpr ⟨hitem, hrest⟩
  · exact List.forall_mem_nil _
  · intro member rest hmember hrest
    exact List.forall_mem_cons.mpr ⟨hmember, hrest⟩
  · intro key value hvalue
    exact hvalue

theorem spellsItems_compact {item : Value} {rest : List Value}
    (h : ∀ v ∈ item :: rest, Spells v v.compact) :
    SpellsItems (item :: rest) (compactItems (item :: rest)) := by
  induction rest generalizing item with
  | nil =>
      have hlast := SpellsItems.last isGap_nil (h item List.mem_cons_self) isGap_nil
      simpa [compactItems] using hlast
  | cons next rest ih =>
      obtain ⟨hitem, hrest⟩ := List.forall_mem_cons.mp h
      have hcons := SpellsItems.cons isGap_nil hitem isGap_nil (ih hrest)
      simpa [compactItems] using hcons

theorem spellsMembers_compact {member : String × Value} {rest : List (String × Value)}
    (h : ∀ m ∈ member :: rest, Spells m.2 m.2.compact) :
    SpellsMembers (member :: rest) (compactMembers (member :: rest)) := by
  induction rest generalizing member with
  | nil =>
      have hlast := SpellsMembers.last member.1 isGap_nil isGap_nil isGap_nil
        (h member List.mem_cons_self) isGap_nil
      simpa [compactMembers] using hlast
  | cons next rest ih =>
      obtain ⟨hmember, hrest⟩ := List.forall_mem_cons.mp h
      have hcons := SpellsMembers.cons member.1 isGap_nil isGap_nil isGap_nil hmember
        isGap_nil (ih hrest)
      simpa [compactMembers] using hcons

theorem spells_compact (v : Value) : Spells v v.compact := by
  induction v using Value.valueInduction with
  | null => exact .null
  | bool b => exact .bool b
  | num n => exact .num n
  | str s => exact .str s
  | arr items ih =>
      cases items with
      | nil => exact .emptyArr isGap_nil
      | cons item rest => exact .arr (spellsItems_compact ih)
  | obj members ih =>
      cases members with
      | nil => exact .emptyObj isGap_nil
      | cons member rest => exact .obj (spellsMembers_compact ih)

/-- The line end before the closing bracket counts as white space behind the last element. -/
theorem spellsItems_indented {depth : Nat} {item : Value} {rest : List Value} {gap : List Char}
    (h : ∀ v ∈ item :: rest, Spells v (v.indented depth)) (hgap : IsGap gap) :
    SpellsItems (item :: rest) (indentedItems depth (item :: rest) ++ gap) := by
  induction rest generalizing item with
  | nil =>
      have hlast := SpellsItems.last (isGap_newLine depth) (h item List.mem_cons_self) hgap
      simpa [indentedItems] using hlast
  | cons next rest ih =>
      obtain ⟨hitem, hrest⟩ := List.forall_mem_cons.mp h
      have hcons := SpellsItems.cons (isGap_newLine depth) hitem isGap_nil (ih hrest)
      simpa [indentedItems] using hcons

theorem spellsMembers_indented {depth : Nat} {member : String × Value}
    {rest : List (String × Value)} {gap : List Char}
    (h : ∀ m ∈ member :: rest, Spells m.2 (m.2.indented depth)) (hgap : IsGap gap) :
    SpellsMembers (member :: rest) (indentedMembers depth (member :: rest) ++ gap) := by
  have hspace : IsGap [' '] := List.forall_mem_singleton.mpr rfl
  induction rest generalizing member with
  | nil =>
      have hlast := SpellsMembers.last member.1 (isGap_newLine depth) isGap_nil hspace
        (h member List.mem_cons_self) hgap
      simpa [indentedMembers] using hlast
  | cons next rest ih =>
      obtain ⟨hmember, hrest⟩ := List.forall_mem_cons.mp h
      have hcons := SpellsMembers.cons member.1 (isGap_newLine depth) isGap_nil hspace
        hmember isGap_nil (ih hrest)
      simpa [indentedMembers] using hcons

theorem spells_indented (v : Value) (depth : Nat) : Spells v (v.indented depth) := by
  induction v using Value.valueInduction generalizing depth with
  | null => exact .null
  | bool b => exact .bool b
  | num n => exact .num n
  | str s => exact .str s
  | arr items ih =>
      cases items with
      | nil => exact .emptyArr isGap_nil
      | cons item rest =>
          have hitems := spellsItems_indented (fun v hv => ih v hv (depth + 1))
            (isGap_newLine depth)
          simpa [Value.indented] using Spells.arr hitems
  | obj members ih =>
      cases members with
      | nil => exact .emptyObj isGap_nil
      | cons member rest =>
          have hmembers := spellsMembers_indented (fun m hm => ih m hm (depth + 1))
            (isGap_newLine depth)
          simpa [Value.indented] using Spells.obj hmembers

end Precis.Json
