import Precis.Proofs.Json.Records

/-! # Members that may be left out

A record reads each member that may be left out by itself: it takes the value that an object has for
the name, or the one that stands in for it. The order of the members does not matter, and neither do
the members that no part of the record knows. -/

namespace Precis.Json

/-! ## What was read of a text -/

mutual

/-- A value that has a text was read to its end. -/
theorem Writes.whole {item : Reading} {text : List Char} (h : Writes item text) :
    item.whole = true := by
  cases h with
  | null => rfl
  | bool b => rfl
  | num h => rfl
  | str h => rfl
  | emptyArr hgap => rfl
  | arr h => simp [Reading.whole, h.whole]
  | emptyObj hgap => rfl
  | obj h => simp [Reading.whole, h.whole]

theorem WritesItems.whole {items : List Reading} {text : List Char} (h : WritesItems items text) :
    wholeItems items = true := by
  cases h with
  | last _ h _ => simp [wholeItems, h.whole]
  | cons _ h _ hrest => simp [wholeItems, h.whole, hrest.whole]

theorem WritesMembers.whole {members : List (Option String × Reading)} {text : List Char}
    (h : WritesMembers members text) : wholeMembers members = true := by
  cases h with
  | last _ _ _ _ h _ => simp [wholeMembers, h.whole]
  | cons _ _ _ _ h _ hrest => simp [wholeMembers, h.whole, hrest.whole]

end

theorem WritesDocument.whole {item : Reading} {text : List Char} (h : WritesDocument item text) :
    item.whole = true := by
  cases h with
  | intro _ h _ => exact h.whole

/-! ## Members of an object -/

/-- The values of the members of a name. -/
def given (name : String) (ms : List (Option String × Reading)) : List Reading :=
  (ms.filter fun m => m.1 == some name).map Prod.snd

/-- Members that can be passed over: their keys are strings, and their values were read to their
end. -/
def Passable (ms : List (Option String × Reading)) : Prop :=
  ∀ m ∈ ms, m.1.isSome = true ∧ m.2.whole = true

/-- The only value of a name, decoded, or the value that stands in for it. -/
inductive Gives {α : Type} (ms : List (Option String × Reading)) (name : String) (value : α)
    (decode : Reading → Except Fault α) : α → Prop where
  | absent (h : given name ms = []) : Gives ms name value decode value
  | once {item : Reading} {a : α} (h : given name ms = [item]) (hitem : decode item = .ok a) :
      Gives ms name value decode a

namespace Record

variable {α β : Type} {ms : List (Option String × Reading)}

/-- A record skips what it does not know. -/
theorem fill_of_forall_none {r : Record α} {draft : r.Draft} (hms : Passable ms)
    (h : ∀ m ∈ ms, ∀ key, m.1 = some key → r.accept draft key m.2 = none) :
    r.fill draft ms = .ok draft := by
  induction ms with
  | nil => rfl
  | cons m rest ih =>
      obtain ⟨⟨hkey, hitem⟩, hrest⟩ := List.forall_mem_cons.mp hms
      obtain ⟨hm, hothers⟩ := List.forall_mem_cons.mp h
      obtain ⟨key, item⟩ := m
      obtain ⟨key, rfl⟩ := Option.isSome_iff_exists.mp hkey
      exact fill_cons_eq_ok.mpr ⟨draft, .unknown (hm key rfl) hitem, ih hrest hothers⟩

/-- A record reads the members of an object as a value, if they can be passed over. -/
def Reads (r : Record α) (ms : List (Option String × Reading)) (a : α) : Prop :=
  Passable ms → r.ofMembers ms = .ok a

theorem reads_pure (a : α) : (pure a).Reads ms a := by
  intro hms
  exact bind_eq_ok.mpr ⟨(), fill_of_forall_none hms fun _ _ _ _ => rfl, rfl⟩

/-- A single member is read wherever it stands. -/
theorem fill_member {name : String} {absence : Absence α} {decode : Reading → Except Fault α}
    {item : Reading} {a : α} (hms : Passable ms) (h : given name ms = [item])
    (hitem : decode item = .ok a) :
    (member name absence decode).fill none ms = .ok (some a) := by
  induction ms with
  | nil => cases h
  | cons m rest ih =>
      obtain ⟨⟨hkey, hwhole⟩, hrest⟩ := List.forall_mem_cons.mp hms
      obtain ⟨key, found⟩ := m
      obtain ⟨key, rfl⟩ := Option.isSome_iff_exists.mp hkey
      by_cases hname : key = name
      · subst hname
        simp only [given, List.filter_cons, beq_self_eq_true, if_true, List.map_cons,
          List.cons.injEq, List.map_eq_nil_iff, List.filter_eq_nil_iff, beq_iff_eq] at h
        obtain ⟨rfl, hnone⟩ := h
        have hstep : (member key absence decode).Step none (some key, found) (some a) :=
          .known (by simp [member, hitem, Except.map])
        refine fill_cons_eq_ok.mpr ⟨_, hstep, fill_of_forall_none hrest ?_⟩
        intro m hm other hother
        have hne : other ≠ key := by
          rintro rfl
          exact hnone m hm hother
        simp [member, hne]
      · have hgiven : given name rest = [item] := by
          simpa [given, List.filter_cons, hname] using h
        exact fill_cons_eq_ok.mpr
          ⟨none, .unknown (by simp [member, hname]) hwhole, ih hrest hgiven⟩

theorem reads_member {name : String} {value : α} {decode : Reading → Except Fault α} {a : α}
    (h : Gives ms name value decode a) : (member name (.allowed value) decode).Reads ms a := by
  intro hms
  cases h with
  | absent h =>
      refine bind_eq_ok.mpr ⟨none, fill_of_forall_none hms ?_, rfl⟩
      intro m hm key hkey
      simp only [given, List.map_eq_nil_iff, List.filter_eq_nil_iff, beq_iff_eq] at h
      have hne : key ≠ name := by
        rintro rfl
        exact h m hm hkey
      simp [member, hne]
  | once h hitem => exact bind_eq_ok.mpr ⟨some a, fill_member hms h hitem, rfl⟩

/-- Two records without a common member read the members of an object side by side. -/
theorem fill_seq {first : Record (α → β)} {second : Record α} {draft last : first.Draft}
    {draft' last' : second.Draft} (hnew : ∀ key, ¬ second.Lacks key → first.Lacks key)
    (h : first.fill draft ms = .ok last) (h' : second.fill draft' ms = .ok last') :
    (first.seq second).fill (draft, draft') ms = .ok (last, last') := by
  induction ms generalizing draft draft' with
  | nil =>
      obtain rfl := Except.ok.inj h
      obtain rfl := Except.ok.inj h'
      rfl
  | cons m rest ih =>
      obtain ⟨next, hstep, hrest⟩ := fill_cons_eq_ok.mp h
      obtain ⟨next', hstep', hrest'⟩ := fill_cons_eq_ok.mp h'
      refine fill_cons_eq_ok.mpr ⟨(next, next'), ?_, ih hrest hrest'⟩
      -- At most one of the two records knows the member.
      cases hstep with
      | @known key item _ haccept =>
          cases hstep' with
          | known haccept' =>
              have hlacks : first.Lacks key := hnew key fun hlacks => by
                rw [hlacks] at haccept'
                cases haccept'
              rw [hlacks] at haccept
              cases haccept
          | unknown _ _ => exact .known (accept_seq_eq_ok.mpr (.inl ⟨haccept, rfl⟩))
      | unknown haccept hitem =>
          cases hstep' with
          | known haccept' =>
              exact .known (accept_seq_eq_ok.mpr (.inr ⟨haccept, haccept', rfl⟩))
          | unknown haccept' _ => exact .unknown (by simp [seq, haccept, haccept']) hitem

theorem Reads.seq {first : Record (α → β)} {second : Record α} {f : α → β} {a : α}
    (h : first.Reads ms f) (h' : second.Reads ms a)
    (hnew : ∀ key, ¬ second.Lacks key → first.Lacks key) :
    (first.seq second).Reads ms (f a) := by
  intro hms
  obtain ⟨last, hfill, hfinish⟩ := bind_eq_ok.mp (h hms)
  obtain ⟨last', hfill', hfinish'⟩ := bind_eq_ok.mp (h' hms)
  refine bind_eq_ok.mpr ⟨(last, last'), fill_seq hnew hfill hfill', ?_⟩
  exact bind_eq_ok.mpr ⟨f, hfinish, bind_eq_ok.mpr ⟨a, hfinish', rfl⟩⟩

/-- A record reads one member more by itself. -/
theorem Reads.defaulted {r : Record (α → β)} {f : α → β} {name : String} {value a : α}
    {decode : Reading → Except Fault α} (h : r.Reads ms f) (hname : r.Lacks name)
    (hgives : Gives ms name value decode a) : (r.defaulted name value decode).Reads ms (f a) := by
  refine h.seq (reads_member hgives) ?_
  intro key hkey
  rw [lacks_member, not_not] at hkey
  rwa [hkey]

end Record

end Precis.Json
