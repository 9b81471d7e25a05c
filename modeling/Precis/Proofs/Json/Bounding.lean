import Precis.Proofs.Json.Records

/-! # Decoders that stay within a depth

A decoder enters a limited number of containers. What it makes of a value is within the same limit
when it is written again, in whichever form the value was given. Each combinator keeps this. -/

namespace Precis.Json

variable {α β : Type} {depth : Nat}

/-! ## Members within a depth -/

/-- The values of all members are within the depth. -/
def MembersWithin (depth : Nat) (ms : List (String × Value)) : Prop :=
  ∀ m ∈ ms, m.2.Within depth

@[simp] theorem membersWithin_nil : MembersWithin depth [] :=
  List.forall_mem_nil _

@[simp] theorem membersWithin_cons {m : String × Value} {ms : List (String × Value)} :
    MembersWithin depth (m :: ms) ↔ m.2.Within depth ∧ MembersWithin depth ms :=
  List.forall_mem_cons

@[simp] theorem membersWithin_append {ms ms' : List (String × Value)} :
    MembersWithin depth (ms ++ ms') ↔ MembersWithin depth ms ∧ MembersWithin depth ms' :=
  List.forall_mem_append

theorem MembersWithin.obj {ms : List (String × Value)} (h : MembersWithin depth ms) :
    (Value.obj ms).Within (depth + 1) :=
  within_obj.mpr ⟨depth.succ_pos, h⟩

@[simp] theorem within_str (s : String) : (Value.str s).Within depth :=
  ⟨Nat.zero_le depth, trivial⟩

@[simp] theorem within_bool (b : Bool) : (Value.bool b).Within depth :=
  ⟨Nat.zero_le depth, trivial⟩

@[simp] theorem membersWithin_flagMember (name : String) (b : Bool) :
    MembersWithin depth (flagMember name b) := by
  cases b <;> simp [flagMember]

theorem membersWithin_listMember {name : String} {items : List Value} :
    MembersWithin depth (listMember name items) ↔
      items = [] ∨ (Value.arr items).Within depth := by
  cases items <;> simp [listMember]

theorem membersWithin_member? {name : String} {value : Option Value} :
    MembersWithin depth (member? name value) ↔ ∀ v ∈ value, v.Within depth := by
  cases value <;> simp [member?]

@[simp] theorem membersWithin_member?_str (name : String) (o : Option String) :
    MembersWithin depth (member? name (o.map .str)) := by
  simp [membersWithin_member?]

/-! ## Single values -/

/-- Whatever the decoder accepts is encoded as a value within the depth. -/
def Bounds (depth : Nat) (decode : Reading → Except Fault α) (encode : α → Value) : Prop :=
  ∀ item a, decode item = .ok a → (encode a).Within depth

theorem bounds_asText : Bounds depth (asText depth) .str :=
  fun _ _ _ => within_str _

theorem toIndex?_lt {n : Numeral} {i : Nat} (h : n.toIndex? = some i) : i < indexBound := by
  unfold Numeral.toIndex? at h
  split at h
  · grind
  · cases h

theorem bounds_asIndex : Bounds depth (asIndex depth) .num := by
  intro item i h
  cases item with
  | num n =>
      cases hindex : n.toIndex? with
      | none => simp [asIndex, hindex] at h
      | some j =>
          obtain rfl : j = i := by simpa [asIndex, hindex] using h
          exact within_num.mpr (toIndex?_lt hindex)
  | null | bool | str | arr | obj | broken => cases h

theorem decodeItems_mem {decode : Reading → Except Fault α} {items : List Reading} {as : List α}
    (h : decodeItems decode items = .ok as) : ∀ a ∈ as, ∃ item, decode item = .ok a := by
  induction items generalizing as with
  | nil =>
      obtain rfl : [] = as := by simpa [decodeItems] using h
      exact List.forall_mem_nil _
  | cons item rest ih =>
      rw [decodeItems] at h
      obtain ⟨a, hitem, h⟩ := bind_eq_ok.mp h
      obtain ⟨others, hrest, h⟩ := bind_eq_ok.mp h
      obtain rfl := pure_eq_ok.mp h
      exact List.forall_mem_cons.mpr ⟨⟨item, hitem⟩, ih hrest⟩

theorem bounds_asList {decode : Decoder α} {encode : α → Value}
    (h : ∀ d < depth, Bounds d (decode d) encode) :
    Bounds depth (asList decode depth) fun as => .arr (as.map encode) := by
  intro item as hdecode
  cases depth with
  | zero => cases hdecode
  | succ d =>
      cases item with
      | arr items closed =>
          obtain ⟨values, hitems, hclosed⟩ := bind_eq_ok.mp hdecode
          obtain ⟨-, rfl⟩ := ite_eq_ok.mp hclosed
          refine within_arr.mpr ⟨d.succ_pos, List.forall_mem_map.mpr fun a ha => ?_⟩
          obtain ⟨item, hitem⟩ := decodeItems_mem hitems a ha
          exact h d d.lt_succ_self item a hitem
      | null | bool | num | str | obj | broken => cases hdecode

/-- An option without a value is not written at all. -/
theorem asOption_within {decode : Decoder α} {encode : α → Value}
    (h : Bounds depth (decode depth) encode) {item : Reading} {o : Option α}
    (ho : asOption decode depth item = .ok o) : ∀ v ∈ o.map encode, v.Within depth := by
  cases o with
  | none => nofun
  | some a =>
      have hdecode : decode depth item = .ok a := by
        cases item with
        | null => cases ho
        | bool | num | str | arr | obj | broken => simpa [asOption, map_eq_ok] using ho
      simpa using h item a hdecode

/-! ## Records -/

namespace Record

/-- What can be known of the members of a record after some of them were read. -/
inductive Reaches (r : Record α) : r.Draft → Prop where
  | blank : Reaches r r.blank
  | accept {draft next : r.Draft} {key : String} {item : Reading} (hdraft : Reaches r draft)
      (h : r.accept draft key item = some (.ok next)) : Reaches r next

theorem Reaches.fill {r : Record α} {draft last : r.Draft} (hdraft : r.Reaches draft)
    {members : List (Option String × Reading)} (h : r.fill draft members = .ok last) :
    r.Reaches last := by
  induction members generalizing draft with
  | nil =>
      obtain rfl : draft = last := by simpa [Record.fill] using h
      exact hdraft
  | cons member rest ih =>
      obtain ⟨next, hstep, hrest⟩ := fill_cons_eq_ok.mp h
      cases hstep with
      | known haccept => exact ih (hdraft.accept haccept) hrest
      | unknown => exact ih hdraft hrest

theorem Reaches.seq {first : Record (α → β)} {second : Record α} {draft : (first.seq second).Draft}
    (h : (first.seq second).Reaches draft) : first.Reaches draft.1 ∧ second.Reaches draft.2 := by
  induction h with
  | blank => exact ⟨.blank, .blank⟩
  | @accept draft next key item _ haccept ih =>
      rcases accept_seq_eq_ok.mp haccept with ⟨hfirst, hnext⟩ | ⟨-, hsecond, hnext⟩
      · rw [hnext]
        exact ⟨ih.1.accept hfirst, ih.2⟩
      · rw [hnext]
        exact ⟨ih.1, ih.2.accept hsecond⟩

theorem Reaches.member {name : String} {absence : Absence α} {decode : Reading → Except Fault α}
    {draft : (member name absence decode).Draft} (h : (member name absence decode).Reaches draft) :
    ∀ a, draft = some a → ∃ item, decode item = .ok a := by
  induction h with
  | blank => nofun
  | @accept draft next key item _ haccept ih =>
      simp only [Record.member] at haccept
      split at haccept
      next =>
        have hnext := Option.some.inj haccept
        cases draft with
        | some => cases hnext
        | none =>
            obtain ⟨a, hitem, rfl⟩ := map_eq_ok.mp hnext
            rintro _ ⟨⟩
            exact ⟨item, hitem⟩
      next => cases haccept

/-- Whatever a record makes of its members, in either form, has the property. -/
structure Grants (r : Record α) (P : α → Prop) : Prop where
  ofDraft : ∀ {draft a}, r.Reaches draft → r.finish draft = .ok a → P a
  ofItems : ∀ {items a rest}, r.ofItems items = .ok (a, rest) → P a

theorem grants_pure {a : α} {P : α → Prop} (h : P a) : (pure a).Grants P where
  ofDraft _ hfinish := by
    cases hfinish
    exact h
  ofItems hitems := by
    cases hitems
    exact h

theorem Grants.seq {first : Record (α → β)} {second : Record α} {P : β → Prop} {Q : α → Prop}
    (h : first.Grants fun f => ∀ a, Q a → P (f a)) (h' : second.Grants Q) :
    (first.seq second).Grants P where
  ofDraft hdraft hfinish := by
    obtain ⟨f, hf, hfinish⟩ := bind_eq_ok.mp hfinish
    obtain ⟨a, ha, hfinish⟩ := bind_eq_ok.mp hfinish
    obtain rfl := pure_eq_ok.mp hfinish
    exact h.ofDraft hdraft.seq.1 hf a (h'.ofDraft hdraft.seq.2 ha)
  ofItems hitems := by
    obtain ⟨⟨f, between⟩, hf, hitems⟩ := bind_eq_ok.mp hitems
    obtain ⟨⟨a, rest⟩, ha, hitems⟩ := bind_eq_ok.mp hitems
    cases pure_eq_ok.mp hitems
    exact h.ofItems hf a (h'.ofItems ha)

theorem Grants.map {r : Record α} {P : β → Prop} {f : α → β} (h : r.Grants fun a => P (f a)) :
    ((pure f).seq r).Grants P :=
  (grants_pure fun _ ha => ha).seq h

/-- A member is decoded from a value, or its absence stands for it. -/
theorem grants_member {name : String} {absence : Absence α} {decode : Reading → Except Fault α}
    {P : α → Prop} (hdecode : ∀ item a, decode item = .ok a → P a)
    (habsence : ∀ a, absence = .named a ∨ absence = .allowed a → P a) :
    (member name absence decode).Grants P where
  ofDraft {draft a} hdraft hfinish := by
    cases draft with
    | some b =>
        cases hfinish
        obtain ⟨item, hitem⟩ := hdraft.member a rfl
        exact hdecode item a hitem
    | none =>
        cases absence with
        | refused => cases hfinish
        | named b =>
            cases hfinish
            exact habsence a (.inl rfl)
        | allowed b =>
            cases hfinish
            exact habsence a (.inr rfl)
  ofItems {items a rest} hitems := by
    cases items with
    | cons item others =>
        obtain ⟨b, hitem, heq⟩ := map_eq_ok.mp hitems
        cases heq
        exact hdecode item a hitem
    | nil =>
        cases absence with
        | refused | named => cases hitems
        | allowed b =>
            cases hitems
            exact habsence a (.inr rfl)

/-! ## Adding a member -/

section Adding

variable {name : String}

/-- A member whose value does not nest. -/
theorem Grants.plain {r : Record (α → β)} {absence : Absence α}
    {decode : Reading → Except Fault α} {P : β → Prop} (h : r.Grants fun f => ∀ a, P (f a)) :
    (r.seq (member name absence decode)).Grants P := by
  have hany : (member name absence decode).Grants fun _ => True :=
    grants_member (fun _ _ _ => trivial) (fun _ _ => trivial)
  refine seq ?_ hany
  simpa using h

theorem Grants.required {r : Record (α → β)} {decode : Reading → Except Fault α}
    {encode : α → Value} {P : β → Prop}
    (h : r.Grants fun f => ∀ a, (encode a).Within depth → P (f a))
    (hdecode : Bounds depth decode encode) : (r.required name decode).Grants P :=
  h.seq (grants_member hdecode (by simp))

/-- A member that is written even if it was left out. -/
theorem Grants.given {r : Record (α → β)} {value : α} {decode : Reading → Except Fault α}
    {encode : α → Value} {P : β → Prop}
    (h : r.Grants fun f => ∀ a, (encode a).Within depth ∨ a = value → P (f a))
    (hdecode : Bounds depth decode encode) : (r.defaulted name value decode).Grants P :=
  h.seq (grants_member (fun item a ha => .inl (hdecode item a ha)) (by simp))

/-- A list that is left out if it is empty. -/
theorem Grants.listed {r : Record (α → β)} {value : α} {decode : Reading → Except Fault α}
    {encode : α → List Value} {P : β → Prop}
    (h : r.Grants fun f => ∀ a, MembersWithin depth (listMember name (encode a)) → P (f a))
    (hdecode : Bounds depth decode fun a => .arr (encode a)) (hvalue : encode value = []) :
    (r.defaulted name value decode).Grants P := by
  refine h.seq (grants_member ?_ ?_)
  · intro item a ha
    exact membersWithin_listMember.mpr (.inr (hdecode item a ha))
  · rintro a (⟨⟨⟩⟩ | ⟨⟨⟩⟩)
    exact membersWithin_listMember.mpr (.inl hvalue)

theorem Grants.list {r : Record (List α → β)} {decode : Reading → Except Fault (List α)}
    {encode : α → Value} {P : β → Prop}
    (h : r.Grants fun f => ∀ as, MembersWithin depth (listMember name (as.map encode)) → P (f as))
    (hdecode : Bounds depth decode fun as => .arr (as.map encode)) :
    (r.defaulted name [] decode).Grants P :=
  h.listed hdecode rfl

theorem grants_option {absence : Absence (Option α)} {decode : Decoder α} {encode : α → Value}
    (habsence : absence = .named none ∨ absence = .allowed none)
    (hdecode : Bounds depth (decode depth) encode) :
    (member name absence (asOption decode depth)).Grants fun o =>
      MembersWithin depth (member? name (o.map encode)) := by
  refine grants_member ?_ ?_
  · intro item o ho
    exact membersWithin_member?.mpr (asOption_within hdecode ho)
  · rcases habsence with rfl | rfl <;> simp [member?]

theorem Grants.nullable {r : Record (Option α → β)} {decode : Decoder α} {encode : α → Value}
    {P : β → Prop}
    (h : r.Grants fun f => ∀ o, MembersWithin depth (member? name (o.map encode)) → P (f o))
    (hdecode : Bounds depth (decode depth) encode) :
    (r.nullable name decode depth).Grants P :=
  h.seq (grants_option (.inl rfl) hdecode)

/-- An option that is left out in both written forms. -/
theorem Grants.optional {r : Record (Option α → β)} {decode : Decoder α} {encode : α → Value}
    {P : β → Prop}
    (h : r.Grants fun f => ∀ o, MembersWithin depth (member? name (o.map encode)) → P (f o))
    (hdecode : Bounds depth (decode depth) encode) :
    (r.defaulted name none (asOption decode depth)).Grants P :=
  h.seq (grants_option (.inr rfl) hdecode)

end Adding

/-! ## Whole records -/

theorem Grants.ofMembers {r : Record α} {P : α → Prop} (h : r.Grants P)
    {members : List (Option String × Reading)} {a : α} (ha : r.ofMembers members = .ok a) :
    P a := by
  obtain ⟨draft, hfill, hfinish⟩ := bind_eq_ok.mp ha
  exact h.ofDraft (Reaches.blank.fill hfill) hfinish

theorem Grants.ofArray {r : Record α} {P : α → Prop} (h : r.Grants P) {items : List Reading}
    {closed : Bool} {a : α} (ha : r.ofArray items closed = .ok a) : P a := by
  obtain ⟨⟨b, rest⟩, hitems, hclosed⟩ := bind_eq_ok.mp ha
  obtain ⟨-, rfl⟩ := ite_eq_ok.mp hclosed
  exact h.ofItems hitems

theorem Grants.decode {r : Record α} {P : α → Prop} (h : r.Grants P) {item : Reading} {a : α}
    (ha : r.decode item = .ok a) : P a := by
  cases item with
  | obj members closed =>
      obtain ⟨draft, hfill, hclosed⟩ := bind_eq_ok.mp ha
      split at hclosed
      · exact h.ofDraft (Reaches.blank.fill hfill) hclosed
      · cases hclosed
  | arr items closed => exact h.ofArray ha
  | null | bool | num | str | broken => cases ha

theorem bounds_decoder {r : Nat → Record α} {members : α → List (String × Value)}
    (h : ∀ d, (r d).Grants fun a => MembersWithin d (members a)) :
    Bounds depth (decoder r depth) fun a => .obj (members a) := by
  intro item a ha
  cases depth with
  | zero => cases ha
  | succ d => exact ((h d).decode ha).obj

end Record

end Precis.Json
