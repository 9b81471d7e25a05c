import Precis.Proofs.Json.Records
import Mathlib.Data.List.Perm.Basic

/-! # Records whose members come in any order

A record that knows its members by name, and takes them up with the same outcome one way round and
the other, does not depend on the order of the members of an object. Members that it does not know
can be added as long as they are JSON. -/

namespace Precis.Json

namespace Record

variable {α β : Type}

/-! ## Orderly records -/

/-- A record has members of these names, and two of them can be taken up in either order. -/
structure Orderly (r : Record α) (names : List String) : Prop where
  accept_eq_none : ∀ draft key item, r.accept draft key item = none ↔ key ∉ names
  swap : ∀ {draft next last key item key' item'}, r.accept draft key item = some (.ok next) →
    r.accept next key' item' = some (.ok last) →
    ∃ other, r.accept draft key' item' = some (.ok other) ∧
      r.accept other key item = some (.ok last)

theorem orderly_pure (a : α) : (pure a).Orderly [] where
  accept_eq_none := by simp [pure]
  swap := nofun

theorem orderly_member (name : String) (absence : Absence α) (decode : Reading → Except Fault α) :
    (member name absence decode).Orderly [name] where
  accept_eq_none draft key item := by
    by_cases hkey : key = name <;> simp [member, hkey]
  swap {draft next last key item key' item'} h h' := by
    -- The same member cannot be taken up twice.
    by_cases hkey : key = name
    · by_cases hkey' : key' = name
      · cases draft with
        | some => simp [member, hkey] at h
        | none =>
            obtain ⟨a, -, rfl⟩ := map_eq_ok.mp (Option.some.inj (by simpa [member, hkey] using h))
            simp [member, hkey'] at h'
      · simp [member, hkey'] at h'
    · simp [member, hkey] at h

theorem Orderly.seq {first : Record (α → β)} {second : Record α} {names names' : List String}
    (h : first.Orderly names) (h' : second.Orderly names') :
    (first.seq second).Orderly (names ++ names') where
  accept_eq_none draft key item := by
    rw [List.mem_append, not_or, ← h.accept_eq_none draft.1 key item,
      ← h'.accept_eq_none draft.2 key item]
    cases hfirst : first.accept draft.1 key item <;> simp [Record.seq, hfirst]
  swap {draft next last key item key' item'} haccept haccept' := by
    simp only [accept_seq_eq_ok] at haccept haccept' ⊢
    rcases haccept with ⟨hkey, hnext⟩ | ⟨hkey, hsecond, hnext⟩ <;>
      rcases haccept' with ⟨hkey', hlast⟩ | ⟨hkey', hsecond', hlast⟩
    · obtain ⟨other, hother, hother'⟩ := h.swap hkey hkey'
      exact ⟨(other, draft.2), .inl ⟨hother, rfl⟩, .inl ⟨hother', hlast.trans hnext⟩⟩
    · have hlacks : first.accept draft.1 key' item' = none := by
        rwa [h.accept_eq_none] at hkey' ⊢
      rw [hnext] at hsecond'
      rw [← hlast] at hkey
      exact ⟨(draft.1, last.2), .inr ⟨hlacks, hsecond', rfl⟩, .inl ⟨hkey, rfl⟩⟩
    · have hlacks : first.accept last.1 key item = none := by
        rwa [h.accept_eq_none] at hkey ⊢
      rw [hnext] at hkey'
      rw [← hlast] at hsecond
      exact ⟨(last.1, draft.2), .inl ⟨hkey', rfl⟩, .inr ⟨hlacks, hsecond, rfl⟩⟩
    · obtain ⟨other, hother, hother'⟩ := h'.swap hsecond hsecond'
      rw [hnext] at hkey' hlast
      exact ⟨(draft.1, other), .inr ⟨hkey', hother, rfl⟩, .inr ⟨hkey, hother', hlast⟩⟩

/-! ## Objects in another order -/

section Objects

variable {r : Record α} {names : List String} {ms ms' : List (Option String × Reading)} {a : α}

theorem Orderly.step_swap (h : r.Orderly names) {draft next last : r.Draft}
    {m m' : Option String × Reading} (hstep : r.Step draft m next) (hstep' : r.Step next m' last) :
    ∃ other, r.Step draft m' other ∧ r.Step other m last := by
  have hnone {draft draft' : r.Draft} {key : String} {item : Reading}
      (hlacks : r.accept draft key item = none) : r.accept draft' key item = none := by
    rwa [h.accept_eq_none] at hlacks ⊢
  cases hstep with
  | known hm =>
      cases hstep' with
      | known hm' =>
          obtain ⟨other, hother, hother'⟩ := h.swap hm hm'
          exact ⟨other, .known hother, .known hother'⟩
      | unknown hm' hitem => exact ⟨draft, .unknown (hnone hm') hitem, .known hm⟩
  | unknown hm hitem =>
      cases hstep' with
      | known hm' => exact ⟨last, .known hm', .unknown (hnone hm) hitem⟩
      | unknown hm' hitem' => exact ⟨draft, .unknown hm' hitem', .unknown hm hitem⟩

theorem Orderly.fill_perm (h : r.Orderly names) (hperm : ms.Perm ms') {draft last : r.Draft}
    (hfill : r.fill draft ms = .ok last) : r.fill draft ms' = .ok last := by
  induction hperm generalizing draft with
  | nil => exact hfill
  | cons m _ ih =>
      obtain ⟨next, hstep, hrest⟩ := fill_cons_eq_ok.mp hfill
      exact fill_cons_eq_ok.mpr ⟨next, hstep, ih hrest⟩
  | swap m m' rest =>
      obtain ⟨next, hstep, hrest⟩ := fill_cons_eq_ok.mp hfill
      obtain ⟨next', hstep', hrest⟩ := fill_cons_eq_ok.mp hrest
      obtain ⟨other, hother, hother'⟩ := h.step_swap hstep hstep'
      exact fill_cons_eq_ok.mpr ⟨other, hother, fill_cons_eq_ok.mpr ⟨next', hother', hrest⟩⟩
  | trans _ _ ih ih' => exact ih' (ih hfill)

/-- The order of the members of an object does not matter. -/
theorem Orderly.ofMembers_perm (h : r.Orderly names) (hperm : ms.Perm ms')
    (ha : r.ofMembers ms = .ok a) : r.ofMembers ms' = .ok a := by
  obtain ⟨draft, hfill, hfinish⟩ := bind_eq_ok.mp ha
  exact bind_eq_ok.mpr ⟨draft, h.fill_perm hperm hfill, hfinish⟩

/-- A member that the record does not know changes nothing. -/
theorem Orderly.ofMembers_cons (h : r.Orderly names) {key : String} {item : Reading}
    (hkey : key ∉ names) (hitem : item.whole = true) (ha : r.ofMembers ms = .ok a) :
    r.ofMembers ((some key, item) :: ms) = .ok a := by
  obtain ⟨draft, hfill, hfinish⟩ := bind_eq_ok.mp ha
  have hstep : r.Step r.blank (some key, item) r.blank :=
    .unknown ((h.accept_eq_none _ _ _).mpr hkey) hitem
  exact bind_eq_ok.mpr ⟨draft, fill_cons_eq_ok.mpr ⟨_, hstep, hfill⟩, hfinish⟩

theorem decode_obj_eq_ok {closed : Bool} :
    r.decode (.obj ms closed) = .ok a ↔ closed = true ∧ r.ofMembers ms = .ok a := by
  simp only [decode, ofMembers, bind_eq_ok]
  cases closed <;> simp

theorem ofArray_eq_ok {items : List Reading} {closed : Bool} :
    r.ofArray items closed = .ok a ↔ closed = true ∧ r.ofItems items = .ok (a, []) := by
  simp only [ofArray, bind_eq_ok, ite_eq_ok]
  constructor
  · rintro ⟨⟨b, rest⟩, hitems, hclosed, rfl⟩
    simp_all
  · rintro ⟨hclosed, hitems⟩
    exact ⟨(a, []), hitems, by simp [hclosed]⟩

end Objects

end Record

end Precis.Json
