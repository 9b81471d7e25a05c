/-!
# Visibility and modifiers

Every declaration has a resolved visibility, and a set of modifiers drawn from a vocabulary that
all languages share. A set has no order of its own; it is listed in the order of the vocabulary.
-/

namespace Precis

/-- Who can see a declaration. -/
inductive Visibility where
  | pub
  | priv
  | prot
  | internal
  | package
deriving DecidableEq

namespace Visibility

/-- Every visibility, in order. -/
def all : List Visibility :=
  [pub, priv, prot, internal, package]

/-- The name of a visibility. -/
def id : Visibility → String
  | pub => "public"
  | priv => "private"
  | prot => "protected"
  | internal => "internal"
  | package => "package-private"

end Visibility

/-- A modifier of a declaration; `data` marks records and data classes. -/
inductive Modifier where
  | static
  | abstract
  | final
  | sealed
  | virtual
  | override
  | async
  | readonly
  | const
  | volatile
  | transient
  | external
  | fragment
  | data
deriving DecidableEq

namespace Modifier

/-- The vocabulary, in order. -/
def all : List Modifier :=
  [static, abstract, final, sealed, virtual, override, async, readonly, const, volatile, transient,
   external, fragment, data]

/-- The name of a modifier. -/
def id : Modifier → String
  | static => "static"
  | abstract => "abstract"
  | final => "final"
  | sealed => "sealed"
  | virtual => "virtual"
  | override => "override"
  | async => "async"
  | readonly => "readonly"
  | const => "const"
  | volatile => "volatile"
  | transient => "transient"
  | external => "extern"
  | fragment => "partial"
  | data => "data"

theorem mem_all (m : Modifier) : m ∈ all := by
  cases m <;> simp [all]

end Modifier

/-- A set of modifiers. -/
@[ext]
structure ModifierSet where
  has : Modifier → Bool

namespace ModifierSet

/-- No modifier. -/
def empty : ModifierSet := ⟨fun _ => false⟩

/-- The set with one modifier more. -/
def insert (s : ModifierSet) (m : Modifier) : ModifierSet :=
  ⟨fun n => n == m || s.has n⟩

/-- The set with the modifiers of a list added. -/
def insertAll (s : ModifierSet) (ms : List Modifier) : ModifierSet :=
  ms.foldl insert s

/-- The modifiers of a list. -/
def ofList (ms : List Modifier) : ModifierSet :=
  empty.insertAll ms

/-- The modifiers of a set, in the order of the vocabulary. -/
def toList (s : ModifierSet) : List Modifier :=
  Modifier.all.filter s.has

/-- Whether a set has no modifier. -/
def isEmpty (s : ModifierSet) : Bool :=
  s.toList.isEmpty

@[simp]
theorem has_empty (m : Modifier) : empty.has m = false := rfl

@[simp]
theorem has_insert (s : ModifierSet) (m n : Modifier) :
    (s.insert m).has n = (n == m || s.has n) := rfl

@[simp]
theorem has_insertAll (s : ModifierSet) (ms : List Modifier) (n : Modifier) :
    (s.insertAll ms).has n = (ms.contains n || s.has n) := by
  induction ms generalizing s with
  | nil => simp [insertAll]
  | cons m ms ih =>
    have step : s.insertAll (m :: ms) = (s.insert m).insertAll ms := rfl
    rw [step, ih, has_insert, List.contains_cons, Bool.or_assoc, Bool.or_left_comm]

@[simp]
theorem mem_toList {s : ModifierSet} {m : Modifier} : m ∈ s.toList ↔ s.has m = true := by
  simp [toList, Modifier.mem_all]

/-- A set is determined by its list of modifiers. -/
theorem ofList_toList (s : ModifierSet) : ofList s.toList = s := by
  ext m
  simp only [ofList, has_insertAll, has_empty, Bool.or_false]
  rw [Bool.eq_iff_iff, List.contains_iff_mem, mem_toList]

instance : DecidableEq ModifierSet := fun a b =>
  if h : a.toList = b.toList then
    isTrue (by rw [← ofList_toList a, ← ofList_toList b, h])
  else isFalse (fun hab => h (congrArg toList hab))

instance : EmptyCollection ModifierSet := ⟨empty⟩

end ModifierSet

end Precis
