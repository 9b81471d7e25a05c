import Precis.Proofs.Interchange.Format
import Precis.Proofs.Json.Ordering

/-! # Decoders that overlook alterations

A decoder overlooks the alterations of a shape if it gives the same result for an altered value.
Each combinator keeps this. A record fits its list of declared members, and from this follows what
an alteration of one of its objects or arrays can do. -/

namespace Precis

open Json

variable {α β : Type} {depth : Nat} {shape : Shape}

/-! ## Single values -/

/-- An altered value is decoded in the same way, as long as it is decoded at all. -/
def Overlooks (shape : Shape) (decode : Reading → Except Fault α) : Prop :=
  ∀ item item' a, Alters shape item item' → decode item = .ok a → decode item' = .ok a

/-- Only objects and arrays can be altered. -/
theorem overlooks_of_scalar {decode : Reading → Except Fault α}
    (hobj : ∀ members closed a, decode (.obj members closed) ≠ .ok a)
    (harr : ∀ items closed a, decode (.arr items closed) ≠ .ok a) : Overlooks shape decode := by
  intro item item' a halters h
  cases halters with
  | permute | insert | member => exact absurd h (hobj _ _ a)
  | element => exact absurd h (harr _ _ a)

theorem overlooks_asText : Overlooks shape (asText depth) :=
  overlooks_of_scalar nofun nofun

theorem overlooks_asFlag : Overlooks shape (asFlag depth) :=
  overlooks_of_scalar nofun nofun

theorem overlooks_asIndex : Overlooks shape (asIndex depth) :=
  overlooks_of_scalar nofun nofun

theorem Alters.ne_null {item item' : Reading} (h : Alters shape item item') :
    item ≠ .null ∧ item' ≠ .null := by
  cases h <;> exact ⟨nofun, nofun⟩

theorem Overlooks.option {decode : Decoder α} (h : Overlooks shape (decode depth)) :
    Overlooks shape (asOption decode depth) := by
  intro item item' o halters ho
  rw [Record.asOption_eq halters.ne_null.1] at ho
  obtain ⟨a, ha, rfl⟩ := map_eq_ok.mp ho
  rw [Record.asOption_eq halters.ne_null.2]
  exact map_eq_ok.mpr ⟨a, h item item' a halters ha, rfl⟩

theorem Alters.eq_of_isVoid {stage : Stage} {item item' : Reading} (h : Alters .plain item item')
    (hvoid : stage.isVoid item = true) : item' = item := by
  cases h with
  | @permute _ members members' closed hperm =>
      cases members with
      | nil => rw [List.nil_perm.mp hperm]
      | cons => cases stage <;> cases hvoid
  | insert hfields => cases hfields
  | @member _ key item item' before after closed =>
      cases before <;> cases stage <;> cases hvoid
  | element => cases stage <;> cases hvoid

/-- An object that stands for a name has no members to change places and none to alter. -/
theorem asChoice_obj {choices : List (String × α)} {stage : Stage}
    {members : List (Option String × Reading)} {closed : Bool} {a : α}
    (h : asChoice choices stage depth (.obj members closed) = .ok a) :
    ∃ key item, members = [(key, item)] ∧ stage.isVoid item = true := by
  unfold asChoice at h
  split at h
  next heq => cases heq
  next name item rest closed heq =>
    cases heq
    split at h
    next => cases h
    next =>
      obtain ⟨b, -, hvoid⟩ := bind_eq_ok.mp h
      obtain ⟨hvoid, -⟩ := ite_eq_ok.mp hvoid
      simp only [Bool.and_eq_true, List.isEmpty_iff] at hvoid
      exact ⟨some name, item, by rw [hvoid.1.2], hvoid.1.1⟩
  next => cases h

theorem overlooks_asChoice {choices : List (String × α)} {stage : Stage} :
    Overlooks .plain (asChoice choices stage depth) := by
  intro item item' a halters h
  cases halters with
  | permute hperm =>
      obtain ⟨key, item, rfl, -⟩ := asChoice_obj h
      rwa [List.singleton_perm.mp hperm] at h
  | insert hfields => cases hfields
  | @member _ key item item' before after closed halters =>
      obtain ⟨key', only, hmembers, hvoid⟩ := asChoice_obj h
      have hmem : (key, item) ∈ [(key', only)] := hmembers ▸ by simp
      obtain ⟨rfl, rfl⟩ : key = key' ∧ item = only := by simpa using hmem
      have hsame : Alters .plain item item' := halters
      rwa [hsame.eq_of_isVoid hvoid]
  | element => cases h

theorem decodeItems_alter {decode : Reading → Except Fault α} (hdecode : Overlooks shape decode)
    {item item' : Reading} (halters : Alters shape item item') {before after : List Reading}
    {as : List α} (h : decodeItems decode (before ++ item :: after) = .ok as) :
    decodeItems decode (before ++ item' :: after) = .ok as := by
  induction before generalizing as with
  | nil =>
      obtain ⟨a, hitem, hrest⟩ := bind_eq_ok.mp h
      exact bind_eq_ok.mpr ⟨a, hdecode item item' a halters hitem, hrest⟩
  | cons first before ih =>
      obtain ⟨a, hfirst, hrest⟩ := bind_eq_ok.mp h
      obtain ⟨others, hothers, has⟩ := bind_eq_ok.mp hrest
      exact bind_eq_ok.mpr ⟨a, hfirst, bind_eq_ok.mpr ⟨others, ih hothers, has⟩⟩

theorem overlooks_asList {decode : Decoder α} (h : ∀ d < depth, Overlooks shape (decode d)) :
    Overlooks (.list shape) (asList decode depth) := by
  intro item item' as halters has
  cases depth with
  | zero => cases has
  | succ d =>
      cases halters with
      | element halters =>
          obtain ⟨values, hvalues, hclosed⟩ := bind_eq_ok.mp has
          have hitems := decodeItems_alter (h d d.lt_succ_self) halters hvalues
          exact bind_eq_ok.mpr ⟨values, hitems, hclosed⟩
      | permute | insert | member => cases has

/-! ## Elements in declared order -/

/-- One of the elements of an array is altered; the shapes are those of its first elements. -/
inductive AltersRow : List Shape → List Reading → List Reading → Prop where
  | here {shapes : List Shape} {item item' : Reading} {rest : List Reading}
      (h : Alters (shapes[0]?.getD .plain) item item') :
      AltersRow shapes (item :: rest) (item' :: rest)
  | there {shapes : List Shape} {item : Reading} {rest rest' : List Reading}
      (h : AltersRow shapes.tail rest rest') : AltersRow shapes (item :: rest) (item :: rest')

theorem altersRow_append {shapes : List Shape} {item item' : Reading} {before after : List Reading}
    (h : Alters (shapes[before.length]?.getD .plain) item item') :
    AltersRow shapes (before ++ item :: after) (before ++ item' :: after) := by
  induction before generalizing shapes with
  | nil => exact .here h
  | cons first before ih =>
      refine .there (ih ?_)
      rwa [List.getElem?_tail]

/-! ## Records -/

namespace Json.Record

/-- A record has the declared members, and an altered value of one of them makes no difference, in
an object or in an array. What an array holds behind the members may be altered as well. -/
structure Fits (r : Record α) (fields : List (String × Shape)) : Prop
    extends r.Orderly (fields.map Prod.fst) where
  alter : ∀ {draft next key item item'}, r.accept draft key item = some (.ok next) →
    Alters (Shape.amongFields fields (some key)) item item' →
    r.accept draft key item' = some (.ok next)
  row : ∀ {items items' more a rest}, r.ofItems items = .ok (a, rest) →
    AltersRow (fields.map Prod.snd ++ more) items items' →
    ∃ rest', r.ofItems items' = .ok (a, rest') ∧ (rest' = rest ∨ AltersRow more rest rest')

theorem fits_pure (a : α) : (pure a).Fits [] where
  toOrderly := orderly_pure a
  alter := nofun
  row {items items' more b rest} h hrow := by
    cases h
    exact ⟨items', rfl, .inr hrow⟩

theorem fits_member {name : String} {absence : Absence α} {decode : Reading → Except Fault α}
    (hdecode : Overlooks shape decode) : (member name absence decode).Fits [(name, shape)] where
  toOrderly := orderly_member name absence decode
  alter {draft next key item item'} h halters := by
    by_cases hkey : key = name
    · subst hkey
      cases draft with
      | some => simp [Record.member] at h
      | none =>
          have halters : Alters shape item item' := by
            simpa [Shape.amongFields, List.lookup_cons] using halters
          obtain ⟨a, ha, rfl⟩ := map_eq_ok.mp
            (Option.some.inj (by simpa [Record.member] using h))
          simp [Record.member, hdecode item item' a halters ha, Except.map]
    · simp [Record.member, hkey] at h
  row {items items' more a rest} h hrow := by
    cases hrow with
    | here halters =>
        obtain ⟨b, hb, heq⟩ := map_eq_ok.mp h
        cases heq
        exact ⟨rest, map_eq_ok.mpr ⟨a, hdecode _ _ a halters hb, rfl⟩, .inl rfl⟩
    | @there _ item others others' hothers =>
        obtain ⟨b, hb, heq⟩ := map_eq_ok.mp h
        cases heq
        exact ⟨others', map_eq_ok.mpr ⟨a, hb, rfl⟩, .inr hothers⟩

theorem Fits.seq {first : Record (α → β)} {second : Record α}
    {fields fields' : List (String × Shape)} (h : first.Fits fields) (h' : second.Fits fields') :
    (first.seq second).Fits (fields ++ fields') where
  toOrderly := by
    rw [List.map_append]
    exact h.toOrderly.seq h'.toOrderly
  alter {draft next key item item'} haccept halters := by
    rcases accept_seq_eq_ok.mp haccept with ⟨hfirst, hnext⟩ | ⟨hfirst, hsecond, hnext⟩
    · have hkey : key ∈ fields.map Prod.fst := by
        by_contra hkey
        rw [(h.accept_eq_none _ _ _).mpr hkey] at hfirst
        cases hfirst
      rw [Shape.amongFields_append_of_mem hkey] at halters
      exact accept_seq_eq_ok.mpr (.inl ⟨h.alter hfirst halters, hnext⟩)
    · have hkey := (h.accept_eq_none _ _ _).mp hfirst
      rw [Shape.amongFields_append_of_not_mem hkey] at halters
      have hlacks := (h.accept_eq_none draft.1 key item').mpr hkey
      exact accept_seq_eq_ok.mpr (.inr ⟨hlacks, h'.alter hsecond halters, hnext⟩)
  row {items items' more b rest} hitems hrow := by
    obtain ⟨⟨f, between⟩, hf, hitems⟩ := bind_eq_ok.mp hitems
    obtain ⟨⟨a, last⟩, ha, hitems⟩ := bind_eq_ok.mp hitems
    cases pure_eq_ok.mp hitems
    rw [List.map_append, List.append_assoc] at hrow
    obtain ⟨between', hf', hbetween⟩ := h.row hf hrow
    rcases hbetween with rfl | hbetween
    · exact ⟨rest, bind_eq_ok.mpr ⟨_, hf', bind_eq_ok.mpr ⟨_, ha, rfl⟩⟩, .inl rfl⟩
    · obtain ⟨rest', ha', hrest⟩ := h'.row ha hbetween
      exact ⟨rest', bind_eq_ok.mpr ⟨_, hf', bind_eq_ok.mpr ⟨_, ha', rfl⟩⟩, hrest⟩

/-- Adds a member to those that are declared, whatever its absence means. -/
theorem Fits.add {r : Record (α → β)} {fields : List (String × Shape)} {name : String}
    {absence : Absence α} {decode : Reading → Except Fault α} (h : r.Fits fields)
    (hdecode : Overlooks shape decode) :
    (r.seq (member name absence decode)).Fits (fields ++ [(name, shape)]) :=
  h.seq (fits_member hdecode)

theorem Fits.map {r : Record α} {fields : List (String × Shape)} (f : α → β) (h : r.Fits fields) :
    ((pure f).seq r).Fits fields :=
  (fits_pure f).seq h

section Whole

variable {r : Record α} {fields : List (String × Shape)} {a : α}

theorem Fits.ofMembers_alter (h : r.Fits fields) {key : Option String} {item item' : Reading}
    (halters : Alters (Shape.amongFields fields key) item item')
    {rest : List (Option String × Reading)} (ha : r.ofMembers ((key, item) :: rest) = .ok a) :
    r.ofMembers ((key, item') :: rest) = .ok a := by
  obtain ⟨last, hfill, hfinish⟩ := bind_eq_ok.mp ha
  obtain ⟨next, hstep, hrest⟩ := fill_cons_eq_ok.mp hfill
  have hstep' : r.Step r.blank (key, item') next := by
    cases hstep with
    | known haccept => exact .known (h.alter haccept halters)
    | unknown haccept hitem =>
        have hkey := (h.accept_eq_none _ _ _).mp haccept
        exact .unknown ((h.accept_eq_none _ _ _).mpr hkey) (halters.whole hitem)
  exact bind_eq_ok.mpr ⟨last, fill_cons_eq_ok.mpr ⟨next, hstep', hrest⟩, hfinish⟩

theorem Fits.ofItems_alter (h : r.Fits fields) {item item' : Reading} {before after : List Reading}
    (halters : Alters (Shape.atPosition fields before.length) item item')
    (ha : r.ofItems (before ++ item :: after) = .ok (a, [])) :
    r.ofItems (before ++ item' :: after) = .ok (a, []) := by
  have hrow : AltersRow (fields.map Prod.snd ++ []) (before ++ item :: after)
      (before ++ item' :: after) := by
    rw [List.append_nil]
    exact altersRow_append halters
  obtain ⟨rest', ha', hrest⟩ := h.row ha hrow
  rcases hrest with rfl | hrest
  · exact ha'
  · cases hrest

theorem Fits.overlooks {schema : Schema} (h : r.Fits schema.members) :
    Overlooks (.record schema) r.decode := by
  intro item item' a halters ha
  cases halters with
  | permute hperm =>
      obtain ⟨hclosed, hmembers⟩ := decode_obj_eq_ok.mp ha
      exact decode_obj_eq_ok.mpr ⟨hclosed, h.ofMembers_perm hperm hmembers⟩
  | insert hfields hkey hitem =>
      obtain rfl : schema.members = _ := Option.some.inj hfields
      obtain ⟨hclosed, hmembers⟩ := decode_obj_eq_ok.mp ha
      exact decode_obj_eq_ok.mpr ⟨hclosed, h.ofMembers_cons hkey hitem.whole hmembers⟩
  | member halters =>
      -- The order does not matter, so that the altered member can be taken to come first.
      obtain ⟨hclosed, hmembers⟩ := decode_obj_eq_ok.mp ha
      have hfirst := h.ofMembers_alter halters (h.ofMembers_perm List.perm_middle hmembers)
      exact decode_obj_eq_ok.mpr ⟨hclosed, h.ofMembers_perm List.perm_middle.symm hfirst⟩
  | element halters =>
      obtain ⟨hclosed, hitems⟩ := ofArray_eq_ok.mp ha
      exact ofArray_eq_ok.mpr ⟨hclosed, h.ofItems_alter halters hitems⟩

theorem overlooks_decoder {r : Nat → Record α} {schema : Schema}
    (h : ∀ d, (r d).Fits schema.members) : Overlooks (.record schema) (decoder r depth) := by
  intro item item' a halters ha
  cases depth with
  | zero => cases ha
  | succ d => exact (h d).overlooks item item' a halters ha

end Whole

end Json.Record

end Precis
