import Precis.Json.Reading

/-!
# Interpreting JSON

A decoder turns a `Reading` into a value of some type or reports the first fault, in reading order.
Its first argument is the number of containers that may still be entered.

Records are described by `Record`: which members they have, how each is decoded, and what the
absence of one means. One description serves both written forms of a record, the object with named
members in any order and the array with the members in their declared order.
-/

namespace Precis.Json

/-- Why a text does not denote a value of the wanted type. -/
inductive Fault where
  /-- The text is no JSON, or some value is of the wrong kind or out of range. -/
  | malformed
  /-- A member that must be there is not. -/
  | missing (name : String)
  /-- A member is given twice. -/
  | duplicate (name : String)
  /-- A name that is none of the choices. -/
  | unknownChoice (found : String) (choices : List String)
deriving DecidableEq

namespace Fault

/-- The choices of a closed list of names, as a message lists them. -/
def describeChoices : List String → String
  | [] => "there are no variants"
  | [a] => "expected `" ++ a ++ "`"
  | [a, b] => "expected `" ++ a ++ "` or `" ++ b ++ "`"
  | a :: rest =>
    rest.foldl (fun text b => text ++ ", `" ++ b ++ "`") ("expected one of `" ++ a ++ "`")

/-- The wording of a fault; faults of form have none of their own. -/
def message? : Fault → Option String
  | malformed => none
  | missing name => some ("missing field `" ++ name ++ "`")
  | duplicate name => some ("duplicate field `" ++ name ++ "`")
  | unknownChoice found choices =>
    some ("unknown variant `" ++ found ++ "`, " ++ describeChoices choices)

end Fault

/-- Where a value stands between its text and its use. -/
inductive Stage where
  /-- The value is decoded while it is read, member by member. -/
  | streamed
  /-- The value belongs to a larger one that was kept for later. -/
  | kept
deriving DecidableEq

/-- Decodes what was read, entering at most the given number of nested containers. -/
abbrev Decoder (α : Type) := Nat → Reading → Except Fault α

/-- How deeply arrays and objects may nest. -/
def depthLimit : Nat := 127

/-! ## What a value may hold -/

mutual

/-- Whether a value was read to its end. -/
def Reading.whole : Reading → Bool
  | .null | .bool _ | .num _ | .str _ => true
  | .arr items closed => wholeItems items && closed
  | .obj members closed => wholeMembers members && closed
  | .broken => false

/-- Whether all elements were read to their end. -/
def wholeItems : List Reading → Bool
  | [] => true
  | item :: rest => item.whole && wholeItems rest

/-- Whether the values of all members were read to their end. -/
def wholeMembers : List (Option String × Reading) → Bool
  | [] => true
  | (_, item) :: rest => item.whole && wholeMembers rest

end

mutual

/-- Whether a value can be kept for later: it was read to its end, nests no deeper than allowed,
and its strings and numbers all have a meaning. -/
def Reading.storable (depth : Nat) : Reading → Bool
  | .null | .bool _ => true
  | .num n => n.representable
  | .str s => s.isSome
  | .arr items closed => 0 < depth && storableItems (depth - 1) items && closed
  | .obj members closed => 0 < depth && storableMembers (depth - 1) members && closed
  | .broken => false

/-- Whether all elements can be kept for later. -/
def storableItems (depth : Nat) : List Reading → Bool
  | [] => true
  | item :: rest => item.storable depth && storableItems depth rest

/-- Whether all keys have a meaning and all values can be kept for later. -/
def storableMembers (depth : Nat) : List (Option String × Reading) → Bool
  | [] => true
  | (key, item) :: rest => key.isSome && item.storable depth && storableMembers depth rest

end

/-! ## Single values -/

/-- A string. -/
def asText : Decoder String
  | _, .str (some s) => .ok s
  | _, _ => .error .malformed

/-- `true` or `false`. -/
def asFlag : Decoder Bool
  | _, .bool b => .ok b
  | _, _ => .error .malformed

/-- A natural number below 2^64. -/
def asIndex : Decoder Nat
  | _, .num n =>
    match n.toIndex? with
    | some i => .ok i
    | none => .error .malformed
  | _, _ => .error .malformed

/-- `null` for no value, anything else for a value. -/
def asOption {α : Type} (decode : Decoder α) : Decoder (Option α)
  | _, .null => .ok none
  | depth, item => (decode depth item).map some

/-- The value that a name stands for among the choices. -/
def chosen {α : Type} (choices : List (String × α)) (name : String) : Except Fault α :=
  match choices.lookup name with
  | some a => .ok a
  | none => .error (.unknownChoice name (choices.map Prod.fst))

/-- Whether a value says that there is nothing to say: `null` does, and so does an empty object that
was kept for later. -/
def Stage.isVoid : Stage → Reading → Bool
  | _, .null => true
  | .kept, .obj [] closed => closed
  | _, _ => false

/-- One of a closed list of names, given as a string, or as an object whose only member has that
name and a void value. While a value is read the name is looked up before a second member can show;
in a kept value the members are counted first. -/
def asChoice {α : Type} (choices : List (String × α)) (stage : Stage) : Decoder α
  | _, .str (some name) => chosen choices name
  | _ + 1, .obj ((some name, item) :: rest) closed =>
    if stage = .kept ∧ rest ≠ [] then .error .malformed
    else do
      let a ← chosen choices name
      if stage.isVoid item && rest.isEmpty && closed then .ok a else .error .malformed
  | _, _ => .error .malformed

/-- Decodes elements in order, up to the first fault. -/
def decodeItems {α : Type} (decode : Reading → Except Fault α) :
    List Reading → Except Fault (List α)
  | [] => .ok []
  | item :: rest => do
    let a ← decode item
    let others ← decodeItems decode rest
    return a :: others

/-- An array whose elements are decoded by `decode`. -/
def arrayOf {α : Type} (decode : Reading → Except Fault α) : Reading → Except Fault (List α)
  | .arr items closed => do
    let values ← decodeItems decode items
    if closed then .ok values else .error .malformed
  | _ => .error .malformed

/-- An array; its elements may nest one level less. -/
def asList {α : Type} (decode : Decoder α) : Decoder (List α)
  | 0, _ => .error .malformed
  | depth + 1, item => arrayOf (decode depth) item

/-! ## Records -/

/-- What it means that a record lacks a member. -/
inductive Absence (α : Type) where
  /-- The member must be there. -/
  | refused
  /-- A value stands in for it in the object form; in the array form it must be there. -/
  | named (value : α)
  /-- A value stands in for it in both forms. -/
  | allowed (value : α)

/-- A description of the members of a record of type `α`. -/
structure Record (α : Type) : Type 1 where
  /-- What is known of the members after some of them were read. -/
  Draft : Type
  /-- No member was read yet. -/
  blank : Draft
  /-- Takes up a member by name; `none` if the record has no member of that name. -/
  accept : Draft → String → Reading → Option (Except Fault Draft)
  /-- The record, once all members were read. -/
  finish : Draft → Except Fault α
  /-- The record from the front of a list of values in declared order, and the values left. -/
  ofItems : List Reading → Except Fault (α × List Reading)

namespace Record

variable {α β : Type}

/-- A record without members. -/
def pure (a : α) : Record α where
  Draft := Unit
  blank := ()
  accept _ _ _ := none
  finish _ := .ok a
  ofItems items := .ok (a, items)

/-- A record with a single member. -/
def member (name : String) (absence : Absence α) (decode : Reading → Except Fault α) :
    Record α where
  Draft := Option α
  blank := none
  accept draft key item :=
    if key = name then
      some (match draft with
        | some _ => .error (.duplicate name)
        | none => (decode item).map some)
    else none
  finish draft :=
    match draft, absence with
    | some a, _ => .ok a
    | none, .refused => .error (.missing name)
    | none, .named a => .ok a
    | none, .allowed a => .ok a
  ofItems
    | item :: rest => (decode item).map fun a => (a, rest)
    | [] =>
      match absence with
      | .allowed a => .ok (a, [])
      | _ => .error .malformed

/-- Puts the members of a second record behind those of the first. -/
def seq (first : Record (α → β)) (second : Record α) : Record β where
  Draft := first.Draft × second.Draft
  blank := (first.blank, second.blank)
  accept draft key item :=
    match first.accept draft.1 key item with
    | some result => some (result.map fun d => (d, draft.2))
    | none => (second.accept draft.2 key item).map fun result => result.map fun d => (draft.1, d)
  finish draft := do
    let f ← first.finish draft.1
    let a ← second.finish draft.2
    return f a
  ofItems items := do
    let (f, items) ← first.ofItems items
    let (a, items) ← second.ofItems items
    return (f a, items)

/-- Adds a member that must be there. -/
def required (r : Record (α → β)) (name : String) (decode : Reading → Except Fault α) :
    Record β :=
  r.seq (member name .refused decode)

/-- Adds a member that may be `null`, and may be left out of the object form. -/
def nullable (r : Record (Option α → β)) (name : String) (decode : Decoder α) (depth : Nat) :
    Record β :=
  r.seq (member name (.named none) (asOption decode depth))

/-- Adds a member that may be left out. -/
def defaulted (r : Record (α → β)) (name : String) (value : α)
    (decode : Reading → Except Fault α) : Record β :=
  r.seq (member name (.allowed value) decode)

/-- Takes up the members of an object in the order in which they were read. Members that the
record does not know are skipped; they only have to be JSON. -/
def fill (r : Record α) : r.Draft → List (Option String × Reading) → Except Fault r.Draft
  | draft, [] => .ok draft
  | _, (none, _) :: _ => .error .malformed
  | draft, (some key, item) :: rest =>
    match r.accept draft key item with
    | some (.ok draft) => r.fill draft rest
    | some (.error fault) => .error fault
    | none => if item.whole then r.fill draft rest else .error .malformed

/-- A record from the members of an object that was read to its end. -/
def ofMembers (r : Record α) (members : List (Option String × Reading)) : Except Fault α := do
  let draft ← r.fill r.blank members
  r.finish draft

/-- A record from the elements of an array, which must all be used up. -/
def ofArray (r : Record α) (items : List Reading) (closed : Bool) : Except Fault α := do
  let (a, rest) ← r.ofItems items
  if closed && rest.isEmpty then .ok a else .error .malformed

/-- A record in either form. -/
def decode (r : Record α) : Reading → Except Fault α
  | .obj members closed => do
    let draft ← r.fill r.blank members
    if closed then r.finish draft else .error .malformed
  | .arr items closed => r.ofArray items closed
  | _ => .error .malformed

/-- A decoder for records, whose members may nest one level less than the record. -/
def decoder (r : Nat → Record α) : Decoder α
  | 0, _ => .error .malformed
  | depth + 1, item => (r depth).decode item

end Record

/-! ## Whole texts -/

/-- Decodes a value that was already read. -/
def decodeReading {α : Type} (decode : Decoder α) (item : Reading) : Except Fault α :=
  decode depthLimit item

/-- Decodes a whole text, after which only white space may follow. -/
def decodeText {α : Type} (decode : Decoder α) (text : List Char) : Except Fault α := do
  let document := Document.parse text
  let a ← decode depthLimit document.value
  if document.clean then .ok a else .error .malformed

end Precis.Json
