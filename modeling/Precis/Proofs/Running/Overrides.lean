import Precis.Settings
import Precis.Proofs.Json.Defaulting

/-! # Settings files

A settings file mentions some of the settings, in any order and among other members. What it does
not mention is as usual, on both levels: a file without a selection has the usual one, and a
selection has the usual position of each switch that it leaves out. What is written to a file is
read back. -/

namespace Precis

open Json

/-! ## Switches -/

/-- The switches of a selection. -/
inductive Switch where
  | bodies
  | privateItems
  | protectedItems
  | internalItems
  | comments
  | docs
  | imports
  | fields
  | functions
  | decorators

namespace Switch

/-- The name in a settings file. -/
def key : Switch → String
  | bodies => "include_implementation"
  | privateItems => "include_private"
  | protectedItems => "include_protected"
  | internalItems => "include_internal"
  | comments => "include_comments"
  | docs => "include_docstrings"
  | imports => "include_imports"
  | fields => "include_fields"
  | functions => "include_methods"
  | decorators => "include_annotations"

/-- Whether a selection has the switch on. -/
def isOn (s : Selection) : Switch → Bool
  | bodies => s.bodies
  | privateItems => s.privateItems
  | protectedItems => s.protectedItems
  | internalItems => s.internalItems
  | comments => s.comments
  | docs => s.docs
  | imports => s.imports
  | fields => s.fields
  | functions => s.functions
  | decorators => s.decorators

end Switch

/-- The selection that has some switches on and the others off. -/
def Selection.ofSwitches (on : Switch → Bool) : Selection where
  bodies := on .bodies
  privateItems := on .privateItems
  protectedItems := on .protectedItems
  internalItems := on .internalItems
  comments := on .comments
  docs := on .docs
  imports := on .imports
  fields := on .fields
  functions := on .functions
  decorators := on .decorators

/-! ## What a file mentions -/

/-- The positions of the switches that are mentioned. -/
abbrev Switching :=
  Switch → Option Bool

/-- A selection with the mentioned switches in the mentioned positions. -/
def Switching.override (p : Switching) (s : Selection) : Selection :=
  .ofSwitches fun switch => (p switch).getD (switch.isOn s)

/-- The settings that are mentioned. -/
structure Mentions where
  selection : Option Switching
  workers : Option Nat
  keepGoing : Option Bool

/-- Settings with the mentioned ones replaced. -/
def Mentions.override (m : Mentions) (s : Settings) : Settings where
  selection := (m.selection.map fun p => p.override s.selection).getD s.selection
  workers := m.workers.getD s.workers
  keepGoing := m.keepGoing.getD s.keepGoing

/-- The members of an object, in any order, mention these switches once and no others. Members with
other names may stand among them. -/
structure Switching.Among (p : Switching) (ms : List (Option String × Reading)) : Prop where
  keys : ∀ m ∈ ms, m.1.isSome = true
  switches : ∀ switch, given switch.key ms = ((p switch).map Reading.bool).toList

/-- The members of an object, in any order, mention these settings once and no others. Members with
other names may stand among them. -/
structure Mentions.Among (m : Mentions) (ms : List (Option String × Reading)) : Prop where
  keys : ∀ member ∈ ms, member.1.isSome = true
  selection :
    match m.selection with
    | some p => ∃ inner, given "strip" ms = [.obj inner true] ∧ p.Among inner
    | none => given "strip" ms = []
  workers : given "workers" ms = (m.workers.map fun n => (Value.num n).reading).toList
  inRange : ∀ n ∈ m.workers, n < 2 ^ 64
  keepGoing : given "continue_on_error" ms = (m.keepGoing.map Reading.bool).toList

/-! ## Reading what is mentioned -/

theorem passable_of_obj {ms : List (Option String × Reading)}
    (hkeys : ∀ m ∈ ms, m.1.isSome = true) (hwhole : (Reading.obj ms true).whole = true) :
    Passable ms := by
  have hitems : wholeMembers ms = true := by simpa [Reading.whole] using hwhole
  exact fun m hm => ⟨hkeys m hm, wholeMembers_eq_true.mp hitems m hm⟩

theorem gives_flag {name : String} {ms : List (Option String × Reading)} {o : Option Bool}
    (h : given name ms = (o.map Reading.bool).toList) (value : Bool) (depth : Nat) :
    Gives ms name value (asFlag depth) (o.getD value) := by
  cases o with
  | none => exact .absent h
  | some b => exact .once h rfl

theorem gives_index {name : String} {ms : List (Option String × Reading)} {o : Option Nat}
    (h : given name ms = (o.map fun n => (Value.num n).reading).toList)
    (hrange : ∀ n ∈ o, n < 2 ^ 64) (value depth : Nat) :
    Gives ms name value (asIndex depth) (o.getD value) := by
  cases o with
  | none => exact .absent h
  | some n => exact .once h (restores_asIndex n (within_num.mpr (hrange n rfl)))

/-- The switches that are mentioned take the place of the usual ones. -/
theorem Switching.Among.reads {p : Switching} {ms : List (Option String × Reading)}
    (h : p.Among ms) (depth : Nat) :
    (Selection.record depth).Reads ms (p.override .signatures) := by
  have hgives : ∀ switch, Gives ms switch.key (switch.isOn .signatures) (asFlag depth)
      ((p switch).getD (switch.isOn .signatures)) :=
    fun switch => gives_flag (h.switches switch) _ depth
  exact (Record.reads_pure Selection.mk)
    |>.defaulted (by simp) (hgives .bodies)
    |>.defaulted (by simp [Switch.key]) (hgives .privateItems)
    |>.defaulted (by simp [Switch.key]) (hgives .protectedItems)
    |>.defaulted (by simp [Switch.key]) (hgives .internalItems)
    |>.defaulted (by simp [Switch.key]) (hgives .comments)
    |>.defaulted (by simp [Switch.key]) (hgives .docs)
    |>.defaulted (by simp [Switch.key]) (hgives .imports)
    |>.defaulted (by simp [Switch.key]) (hgives .fields)
    |>.defaulted (by simp [Switch.key]) (hgives .functions)
    |>.defaulted (by simp [Switch.key]) (hgives .decorators)

theorem whole_of_given {name : String} {ms : List (Option String × Reading)} {item : Reading}
    (hms : Passable ms) (h : given name ms = [item]) : item.whole = true := by
  obtain ⟨m, hm, rfl⟩ := List.mem_map.mp (h ▸ List.mem_singleton_self item)
  exact (hms m (List.mem_filter.mp hm).1).2

theorem Mentions.Among.gives_selection {m : Mentions} {ms : List (Option String × Reading)}
    (h : m.Among ms) (hms : Passable ms) (depth : Nat) :
    Gives ms "strip" {} (Selection.decode (depth + 1)) (m.override {}).selection := by
  have hselection := h.selection
  unfold override
  cases hmentioned : m.selection with
  | none =>
      rw [hmentioned] at hselection
      exact .absent hselection
  | some p =>
      rw [hmentioned] at hselection
      obtain ⟨inner, hinner, hamong⟩ := hselection
      have hpassable := passable_of_obj hamong.keys (whole_of_given hms hinner)
      exact .once hinner (hamong.reads depth hpassable)

/-- The settings that are mentioned take the place of the usual ones. -/
theorem Mentions.Among.reads {m : Mentions} {ms : List (Option String × Reading)}
    (h : m.Among ms) (hms : Passable ms) (depth : Nat) :
    (Settings.record (depth + 1)).Reads ms (m.override {}) :=
  (Record.reads_pure Settings.mk)
    |>.defaulted (by simp) (h.gives_selection hms depth)
    |>.defaulted (by simp) (gives_index h.workers h.inRange _ _)
    |>.defaulted (by simp) (gives_flag h.keepGoing _ _)

theorem Settings.ofText_of_among {text : List Char} {ms : List (Option String × Reading)}
    {m : Mentions} (htext : WritesDocument (.obj ms true) text) (h : m.Among ms) :
    ofText text = .ok (m.override {}) := by
  have hms := passable_of_obj h.keys htext.whole
  have hdecode : decode depthLimit (.obj ms true) = .ok (m.override {}) := h.reads hms 125 hms
  rw [ofText, decodeText, htext.parse_eq]
  simp only [hdecode]
  rfl

/-! ## Reading what was written -/

/-- Everything that can be mentioned of settings. -/
def Mentions.all (s : Settings) : Mentions where
  selection := some fun switch => some (switch.isOn s.selection)
  workers := some s.workers
  keepGoing := some s.keepGoing

theorem Switching.among_encode (s : Selection) :
    ∃ ms, s.encode.reading = .obj ms true ∧
      Switching.Among (fun switch => some (switch.isOn s)) ms := by
  refine ⟨_, rfl, ?_, ?_⟩
  · simp [readingMembers]
  · intro switch
    cases switch <;> rfl

theorem Mentions.among_encode {s : Settings} (h : s.workers < 2 ^ 64) :
    ∃ ms, s.encode.reading = .obj ms true ∧ (Mentions.all s).Among ms := by
  obtain ⟨inner, hinner, hamong⟩ := Switching.among_encode s.selection
  refine ⟨_, rfl, ?_, ⟨inner, ?_, hamong⟩, rfl, ?_, rfl⟩
  · simp [readingMembers]
  · rw [← hinner]
    rfl
  · simpa [Mentions.all] using h

/-- A settings file that mentions some settings stands for the usual ones with those replaced, and
settings that are written to a file are read back. -/
theorem Settings.ofText_override :
    (∀ (text : List Char) (ms : List (Option String × Reading)) (m : Mentions),
      WritesDocument (.obj ms true) text → m.Among ms → ofText text = .ok (m.override {})) ∧
    ∀ s : Settings, s.workers < 2 ^ 64 → ofText s.toText = .ok s := by
  constructor
  · intro text ms m
    exact ofText_of_among
  · intro s hworkers
    obtain ⟨ms, hms, hamong⟩ := Mentions.among_encode hworkers
    have htext := (spells_indented s.encode 0).writesDocument
    rw [hms] at htext
    exact ofText_of_among htext hamong

/-- The members of an object that mentions some settings, in an unusual order and with others among
them. -/
def sparseMembers : List (String × Value) :=
  [("note", .arr [.null]), ("workers", .num 4),
   ("strip", .obj
     [("include_imports", .bool false), ("strip", .str "all"), ("include_private", .bool true)])]

/-- The switches that the object mentions. -/
def sparseSwitching : Switching
  | .imports => some false
  | .privateItems => some true
  | _ => none

/-- What the object mentions. -/
def sparseMentions : Mentions where
  selection := some sparseSwitching
  workers := some 4
  keepGoing := none

theorem among_sparseMembers : sparseMentions.Among (readingMembers sparseMembers) := by
  refine ⟨by simp [readingMembers, sparseMembers], ⟨_, rfl, by simp [readingMembers], ?_⟩, rfl,
    by simp [sparseMentions], rfl⟩
  intro switch
  cases switch <;> rfl

theorem writesDocument_sparseMembers :
    WritesDocument (.obj (readingMembers sparseMembers) true) (Value.obj sparseMembers).compact :=
  (spells_compact (.obj sparseMembers)).writesDocument

theorem Settings.ofText_override_sparse :
    WritesDocument (.obj (readingMembers sparseMembers) true) (Value.obj sparseMembers).compact ∧
    sparseMentions.Among (readingMembers sparseMembers) ∧
    ofText (Value.obj sparseMembers).compact =
      .ok { selection := { privateItems := true, imports := false }, workers := 4 } ∧
    Settings.workers { selection := .full, workers := 16, keepGoing := true } < 2 ^ 64 ∧
    ofText (toText { selection := .full, workers := 16, keepGoing := true }) =
      .ok { selection := .full, workers := 16, keepGoing := true } := by
  have hworkers :
      Settings.workers { selection := .full, workers := 16, keepGoing := true } < 2 ^ 64 := by
    decide
  exact ⟨writesDocument_sparseMembers, among_sparseMembers,
    ofText_override.1 _ _ _ writesDocument_sparseMembers among_sparseMembers, hworkers,
    ofText_override.2 _ hworkers⟩

end Precis
