import Precis.Proofs.Except
import Precis.Proofs.Json.Restoring

/-! # Records that undo an encoding

A record restores a list of members if it takes up each of them and then stands for what they were
made from. Adding a member to a record keeps this, as long as its name is new. -/

namespace Precis.Json

namespace Record

variable {α β : Type} {depth : Nat}

/-! ## Names -/

/-- A record has no member of the name. -/
def Lacks (r : Record α) (key : String) : Prop :=
  ∀ draft item, r.accept draft key item = none

@[simp] theorem lacks_pure (a : α) (key : String) : (pure a).Lacks key :=
  fun _ _ => rfl

@[simp] theorem lacks_member {name key : String} {absence : Absence α}
    {decode : Reading → Except Fault α} :
    (member name absence decode).Lacks key ↔ key ≠ name := by
  constructor
  · rintro h rfl
    simpa [member] using h none .null
  · intro h draft item
    simp [member, h]

@[simp] theorem lacks_seq {first : Record (α → β)} {second : Record α} {key : String} :
    (first.seq second).Lacks key ↔ first.Lacks key ∧ second.Lacks key := by
  constructor
  · intro h
    have hboth (draft : first.Draft) (draft' : second.Draft) (item : Reading) :
        first.accept draft key item = none ∧ second.accept draft' key item = none := by
      have hnone := h (draft, draft') item
      cases hfirst : first.accept draft key item <;> simp_all [seq]
    exact ⟨fun draft item => (hboth draft second.blank item).1,
      fun draft item => (hboth first.blank draft item).2⟩
  · rintro ⟨hfirst, hsecond⟩ draft item
    simp [seq, hfirst draft.1 item, hsecond draft.2 item]

@[simp] theorem lacks_required {r : Record (α → β)} {name key : String}
    {decode : Reading → Except Fault α} :
    (r.required name decode).Lacks key ↔ r.Lacks key ∧ key ≠ name := by
  rw [required, lacks_seq, lacks_member]

@[simp] theorem lacks_nullable {r : Record (Option α → β)} {name key : String}
    {decode : Decoder α} :
    (r.nullable name decode depth).Lacks key ↔ r.Lacks key ∧ key ≠ name := by
  rw [nullable, lacks_seq, lacks_member]

@[simp] theorem lacks_defaulted {r : Record (α → β)} {name key : String} {value : α}
    {decode : Reading → Except Fault α} :
    (r.defaulted name value decode).Lacks key ↔ r.Lacks key ∧ key ≠ name := by
  rw [defaulted, lacks_seq, lacks_member]

/-! ## Taking up members -/

/-- A member goes to the first of two records that knows it. -/
theorem accept_seq_eq_ok {first : Record (α → β)} {second : Record α}
    {draft next : (first.seq second).Draft} {key : String} {item : Reading} :
    (first.seq second).accept draft key item = some (.ok next) ↔
      first.accept draft.1 key item = some (.ok next.1) ∧ next.2 = draft.2 ∨
        first.accept draft.1 key item = none ∧
          second.accept draft.2 key item = some (.ok next.2) ∧ next.1 = draft.1 := by
  obtain ⟨next₁, next₂⟩ := next
  cases hfirst : first.accept draft.1 key item with
  | some result => cases result <;> simp [seq, hfirst, Except.map, Prod.ext_iff, eq_comm]
  | none =>
      cases hsecond : second.accept draft.2 key item with
      | some result => cases result <;> simp [seq, hfirst, hsecond, Except.map, and_comm, eq_comm]
      | none => simp [seq, hfirst, hsecond]

/-- A record takes up all members of a list, one after the other. -/
inductive Takes (r : Record α) : r.Draft → List (String × Value) → r.Draft → Prop where
  | nil (draft : r.Draft) : Takes r draft [] draft
  | cons {draft next last : r.Draft} {key : String} {value : Value} {rest : List (String × Value)}
      (h : r.accept draft key value.reading = some (.ok next)) (hrest : Takes r next rest last) :
      Takes r draft ((key, value) :: rest) last

theorem Takes.fill_eq {r : Record α} {draft last : r.Draft} {ms : List (String × Value)}
    (h : r.Takes draft ms last) : r.fill draft (readingMembers ms) = .ok last := by
  induction h with
  | nil draft => rfl
  | cons h _ ih => simp only [readingMembers, fill, h, ih]

theorem Takes.not_lacks {r : Record α} {draft last : r.Draft} {ms : List (String × Value)}
    (h : r.Takes draft ms last) : ∀ m ∈ ms, ¬ r.Lacks m.1 := by
  induction h with
  | nil draft => exact List.forall_mem_nil _
  | cons h _ ih =>
      refine List.forall_mem_cons.mpr ⟨?_, ih⟩
      intro hlacks
      rw [hlacks] at h
      cases h

/-- The first record takes up its members, and the second one those that the first one lacks. -/
theorem Takes.seq {first : Record (α → β)} {second : Record α} {draft last : first.Draft}
    {draft' last' : second.Draft} {ms ms' : List (String × Value)} (h : first.Takes draft ms last)
    (h' : second.Takes draft' ms' last') (hlacks : ∀ m ∈ ms', first.Lacks m.1) :
    (first.seq second).Takes (draft, draft') (ms ++ ms') (last, last') := by
  induction h with
  | nil draft =>
      induction h' with
      | nil draft' => exact .nil _
      | cons haccept _ ih =>
          obtain ⟨hkey, hrest⟩ := List.forall_mem_cons.mp hlacks
          exact .cons (by simp [Record.seq, hkey draft, haccept, Except.map]) (ih hrest)
  | cons haccept _ ih =>
      exact .cons (by simp [Record.seq, haccept, Except.map]) ih

/-- A record takes up a member or skips one that it does not know. -/
inductive Step (r : Record α) (draft : r.Draft) : Option String × Reading → r.Draft → Prop where
  | known {key : String} {item : Reading} {next : r.Draft}
      (h : r.accept draft key item = some (.ok next)) : Step r draft (some key, item) next
  | unknown {key : String} {item : Reading} (h : r.accept draft key item = none)
      (hitem : item.whole = true) : Step r draft (some key, item) draft

theorem fill_cons_eq_ok {r : Record α} {draft last : r.Draft} {m : Option String × Reading}
    {rest : List (Option String × Reading)} :
    r.fill draft (m :: rest) = .ok last ↔
      ∃ next, r.Step draft m next ∧ r.fill next rest = .ok last := by
  obtain ⟨_ | key, item⟩ := m
  · constructor
    · nofun
    · rintro ⟨next, ⟨⟩, -⟩
  · constructor
    · intro h
      rw [fill] at h
      split at h
      next next haccept => exact ⟨next, .known haccept, h⟩
      next => cases h
      next haccept =>
        split at h
        next hitem => exact ⟨draft, .unknown haccept hitem, h⟩
        next => cases h
    · rintro ⟨next, hstep, hrest⟩
      cases hstep with
      | known h => simp only [fill, h, hrest]
      | unknown h hitem => simp only [fill, h, hitem, if_true, hrest]

/-! ## Rebuilding -/

/-- Members within the depth are taken up by a record, which then stands for `a`. -/
def Rebuilds (depth : Nat) (r : Record α) (ms : List (String × Value)) (a : α) : Prop :=
  (∀ m ∈ ms, m.2.Within depth) → ∃ last, r.Takes r.blank ms last ∧ r.finish last = .ok a

theorem rebuilds_pure (a : α) : (pure a).Rebuilds depth [] a :=
  fun _ => ⟨(), .nil _, rfl⟩

theorem Rebuilds.seq {first : Record (α → β)} {second : Record α} {ms ms' : List (String × Value)}
    {f : α → β} {a : α} (h : first.Rebuilds depth ms f) (h' : second.Rebuilds depth ms' a)
    (hnew : ∀ key, ¬ second.Lacks key → first.Lacks key) :
    (first.seq second).Rebuilds depth (ms ++ ms') (f a) := by
  intro hwithin
  obtain ⟨hms, hms'⟩ := List.forall_mem_append.mp hwithin
  obtain ⟨last, htakes, hfinish⟩ := h hms
  obtain ⟨last', htakes', hfinish'⟩ := h' hms'
  refine ⟨(last, last'), htakes.seq htakes' fun m hm => hnew m.1 (htakes'.not_lacks m hm), ?_⟩
  simp only [Record.seq, hfinish, hfinish']
  rfl

theorem Rebuilds.map {r : Record α} {ms : List (String × Value)} {a : α} (f : α → β)
    (h : r.Rebuilds depth ms a) : ((pure f).seq r).Rebuilds depth ms (f a) :=
  (rebuilds_pure f).seq h fun key _ => lacks_pure f key

theorem rebuilds_member {name : String} {absence : Absence α} {decode : Reading → Except Fault α}
    {value : Value} {a : α} (h : value.Within depth → decode value.reading = .ok a) :
    (member name absence decode).Rebuilds depth [(name, value)] a := by
  intro hwithin
  have hdecoded := h (hwithin _ List.mem_cons_self)
  refine ⟨some a, .cons ?_ (.nil _), rfl⟩
  simp [member, hdecoded, Except.map]

theorem rebuilds_absent {name : String} {absence : Absence α} {decode : Reading → Except Fault α}
    {a : α} (h : absence = .named a ∨ absence = .allowed a) :
    (member name absence decode).Rebuilds depth [] a := by
  rcases h with rfl | rfl <;> exact fun _ => ⟨none, .nil _, rfl⟩

/-! ## Adding a member -/

section Adding

variable {name : String} {ms : List (String × Value)}

theorem Rebuilds.seq_member {r : Record (α → β)} {f : α → β} {absence : Absence α}
    {decode : Reading → Except Fault α} {a : α} {ms' : List (String × Value)}
    (h : r.Rebuilds depth ms f) (hname : r.Lacks name)
    (hmember : (member name absence decode).Rebuilds depth ms' a) :
    (r.seq (member name absence decode)).Rebuilds depth (ms ++ ms') (f a) := by
  refine h.seq hmember ?_
  intro key hkey
  rw [lacks_member, not_not] at hkey
  rwa [hkey]

theorem Rebuilds.required {r : Record (α → β)} {f : α → β} {decode : Reading → Except Fault α}
    {encode : α → Value} (h : r.Rebuilds depth ms f) (hname : r.Lacks name)
    (hdecode : Restores depth decode encode) (a : α) :
    (r.required name decode).Rebuilds depth (ms ++ [(name, encode a)]) (f a) :=
  h.seq_member hname (rebuilds_member (hdecode a))

/-- A member that could be left out and is not. -/
theorem Rebuilds.given {r : Record (α → β)} {f : α → β} {value : α}
    {decode : Reading → Except Fault α} {encode : α → Value} (h : r.Rebuilds depth ms f)
    (hname : r.Lacks name) (hdecode : Restores depth decode encode) (a : α) :
    (r.defaulted name value decode).Rebuilds depth (ms ++ [(name, encode a)]) (f a) :=
  h.seq_member hname (rebuilds_member (hdecode a))

theorem Rebuilds.flag {r : Record (Bool → β)} {f : Bool → β} (h : r.Rebuilds depth ms f)
    (hname : r.Lacks name) (b : Bool) :
    (r.defaulted name false (asFlag depth)).Rebuilds depth (ms ++ flagMember name b) (f b) := by
  refine h.seq_member hname ?_
  cases b with
  | false => exact rebuilds_absent (.inr rfl)
  | true => exact rebuilds_member (restores_asFlag true)

/-- A list that is left out if it is empty. -/
theorem Rebuilds.listed {r : Record (α → β)} {f : α → β} {value : α}
    {decode : Reading → Except Fault α} {encode : α → List Value} (h : r.Rebuilds depth ms f)
    (hname : r.Lacks name) (hdecode : Restores depth decode fun a => .arr (encode a)) {a : α}
    (hempty : encode a = [] → a = value) :
    (r.defaulted name value decode).Rebuilds depth (ms ++ listMember name (encode a)) (f a) := by
  refine h.seq_member hname ?_
  by_cases hnil : encode a = []
  · rw [hnil]
    exact rebuilds_absent (.inr (by rw [hempty hnil]))
  · have hmember : listMember name (encode a) = [(name, .arr (encode a))] := by
      simp [listMember, hnil]
    rw [hmember]
    exact rebuilds_member (hdecode a)

theorem Rebuilds.list {r : Record (List α → β)} {f : List α → β}
    {decode : Reading → Except Fault (List α)} {encode : α → Value} (h : r.Rebuilds depth ms f)
    (hname : r.Lacks name) (hdecode : Restores depth decode fun as => .arr (as.map encode))
    (as : List α) :
    (r.defaulted name [] decode).Rebuilds depth (ms ++ listMember name (as.map encode)) (f as) :=
  h.listed hname hdecode List.map_eq_nil_iff.mp

/-- A value that is not `null` is decoded as a value that is there. -/
theorem asOption_eq {decode : Decoder α} {item : Reading} (h : item ≠ .null) :
    asOption decode depth item = (decode depth item).map some := by
  cases item <;> first | rfl | exact absurd rfl h

theorem rebuilds_option {absence : Absence (Option α)} {decode : Decoder α} {encode : α → Value}
    (habsence : absence = .named none ∨ absence = .allowed none)
    (hdecode : Restores depth (decode depth) encode) (hnull : ∀ a, (encode a).reading ≠ .null)
    (o : Option α) :
    (member name absence (asOption decode depth)).Rebuilds depth
      (member? name (o.map encode)) o := by
  cases o with
  | none => exact rebuilds_absent habsence
  | some a =>
      refine rebuilds_member fun hwithin => ?_
      rw [asOption_eq (hnull a), hdecode a hwithin]
      rfl

theorem Rebuilds.nullable {r : Record (Option α → β)} {f : Option α → β} {decode : Decoder α}
    {encode : α → Value} (h : r.Rebuilds depth ms f) (hname : r.Lacks name)
    (hdecode : Restores depth (decode depth) encode) (hnull : ∀ a, (encode a).reading ≠ .null)
    (o : Option α) :
    (r.nullable name decode depth).Rebuilds depth (ms ++ member? name (o.map encode)) (f o) :=
  h.seq_member hname (rebuilds_option (.inl rfl) hdecode hnull o)

/-- An option that is left out in both written forms. -/
theorem Rebuilds.optional {r : Record (Option α → β)} {f : Option α → β} {decode : Decoder α}
    {encode : α → Value} (h : r.Rebuilds depth ms f) (hname : r.Lacks name)
    (hdecode : Restores depth (decode depth) encode) (hnull : ∀ a, (encode a).reading ≠ .null)
    (o : Option α) :
    (r.defaulted name none (asOption decode depth)).Rebuilds depth
      (ms ++ member? name (o.map encode)) (f o) :=
  h.seq_member hname (rebuilds_option (.inr rfl) hdecode hnull o)

end Adding

/-! ## Whole records -/

theorem Rebuilds.ofMembers_eq {r : Record α} {ms : List (String × Value)} {a : α}
    (h : r.Rebuilds depth ms a) (hwithin : ∀ m ∈ ms, m.2.Within depth) :
    r.ofMembers (readingMembers ms) = .ok a := by
  obtain ⟨last, htakes, hfinish⟩ := h hwithin
  simp only [ofMembers, htakes.fill_eq]
  exact hfinish

theorem Rebuilds.decode_eq {r : Record α} {ms : List (String × Value)} {a : α}
    (h : r.Rebuilds depth ms a) (hwithin : (Value.obj ms).Within (depth + 1)) :
    r.decode (Value.obj ms).reading = .ok a := by
  obtain ⟨last, htakes, hfinish⟩ := h (within_obj.mp hwithin).2
  simp only [Value.reading, decode, htakes.fill_eq]
  exact hfinish

theorem restores_decoder {r : Nat → Record α} {members : α → List (String × Value)}
    (h : ∀ d a, (r d).Rebuilds d (members a) a) :
    Restores depth (decoder r depth) fun a => .obj (members a) := by
  intro a hwithin
  cases depth with
  | zero => exact absurd (within_obj.mp hwithin).1 (Nat.lt_irrefl 0)
  | succ d => exact (h d a).decode_eq hwithin

end Record

end Precis.Json
