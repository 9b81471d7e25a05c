import Precis.Proofs.Outlining.Spans
import Mathlib.Data.List.Basic

/-! # Parse trees without their comments

Deleting all comments from a parse tree leaves the other nodes as they are and where they are.
What is looked up by kind or by role is found as before; only who reads children by their position,
or whatever their kind, can tell the difference. -/

namespace Precis

namespace ParseTree

/-- The kinds of comments in all grammars. -/
def remarkKinds : List String := ["comment", "line_comment", "block_comment"]

/-- Whether a node is a comment in some grammar. -/
def isRemark (t : ParseTree) : Bool :=
  remarkKinds.contains t.kind

theorem isRemark_iff {t : ParseTree} : t.isRemark = true ↔
    t.kind = "comment" ∨ t.kind = "line_comment" ∨ t.kind = "block_comment" := by
  simp [isRemark, remarkKinds]

/-- What holds of the kinds of comments holds of the kind of a comment. -/
theorem of_isRemark {P : String → Prop} (h : ∀ kind ∈ remarkKinds, P kind) {t : ParseTree}
    (ht : t.isRemark = true) : P t.kind :=
  h t.kind (List.contains_iff_mem.mp ht)

mutual

/-- The tree without the comments below its root. -/
def unremarked : ParseTree → ParseTree
  | ⟨kind, role, named, missing, faulty, start, stop, children⟩ =>
    ⟨kind, role, named, missing, faulty, start, stop, unremarkedAll children⟩

/-- A row of trees without its comments and those below it. -/
def unremarkedAll : List ParseTree → List ParseTree
  | [] => []
  | t :: ts => if t.isRemark then unremarkedAll ts else t.unremarked :: unremarkedAll ts

end

/-! ## What stays -/

section

variable (t : ParseTree) (source : List Char)

@[simp] theorem kind_unremarked : t.unremarked.kind = t.kind := by
  cases t
  rfl

@[simp] theorem role_unremarked : t.unremarked.role = t.role := by
  cases t
  rfl

@[simp] theorem named_unremarked : t.unremarked.named = t.named := by
  cases t
  rfl

@[simp] theorem missing_unremarked : t.unremarked.missing = t.missing := by
  cases t
  rfl

@[simp] theorem faulty_unremarked : t.unremarked.faulty = t.faulty := by
  cases t
  rfl

@[simp] theorem text_unremarked : t.unremarked.text source = t.text source := by
  cases t
  rfl

@[simp] theorem location_unremarked : t.unremarked.location source = t.location source := by
  cases t
  rfl

theorem children_unremarked : t.unremarked.children = unremarkedAll t.children := by
  cases t
  rfl

end

/-! ## Rows -/

section

variable {ts : List ParseTree} {α : Type}

theorem unremarkedAll_cons_of_remark {t : ParseTree} (h : t.isRemark = true) :
    unremarkedAll (t :: ts) = unremarkedAll ts := by
  rw [unremarkedAll, if_pos h]

theorem unremarkedAll_cons {t : ParseTree} (h : t.isRemark = false) :
    unremarkedAll (t :: ts) = t.unremarked :: unremarkedAll ts := by
  rw [unremarkedAll, if_neg (by simp [h])]

theorem unremarkedAll_eq (ts : List ParseTree) :
    unremarkedAll ts = (ts.filter fun t => !t.isRemark).map unremarked := by
  induction ts with
  | nil => rfl
  | cons t ts ih =>
      cases hkind : t.isRemark <;> simp [unremarkedAll, hkind, ih]

theorem filter_unremarkedAll {p : ParseTree → Bool} (hp : ∀ t, p t.unremarked = p t) :
    (unremarkedAll ts).filter p = unremarkedAll (ts.filter p) := by
  induction ts with
  | nil => rfl
  | cons t ts ih =>
      cases hremark : t.isRemark <;> cases hpt : p t <;>
        simp [unremarkedAll, hremark, hp, hpt, ih]

/-- A row without comments of its own only loses those below. -/
theorem unremarkedAll_eq_map (h : ∀ t ∈ ts, t.isRemark = false) :
    unremarkedAll ts = ts.map unremarked := by
  induction ts with
  | nil => rfl
  | cons t ts ih =>
      obtain ⟨ht, hts⟩ := List.forall_mem_cons.mp h
      rw [unremarkedAll_cons ht, ih hts, List.map_cons]

/-- If what is found is no comment, it is found without the comments too. -/
theorem find?_unremarkedAll_of_found {p : ParseTree → Bool}
    (hp : ∀ t ∈ ts, p t.unremarked = p t)
    (hfound : ∀ t, ts.find? p = some t → t.isRemark = false) :
    (unremarkedAll ts).find? p = (ts.find? p).map unremarked := by
  induction ts with
  | nil => rfl
  | cons t ts ih =>
      obtain ⟨ht, hts⟩ := List.forall_mem_cons.mp hp
      cases hpt : p t with
      | true =>
          have hkind := hfound t (by rw [List.find?_cons_of_pos hpt])
          rw [unremarkedAll_cons hkind, List.find?_cons_of_pos (by rw [ht, hpt]),
            List.find?_cons_of_pos hpt, Option.map_some]
      | false =>
          have hrest : (t :: ts).find? p = ts.find? p := List.find?_cons_of_neg (by simp [hpt])
          rw [hrest] at hfound ⊢
          cases hkind : t.isRemark with
          | true => rw [unremarkedAll_cons_of_remark hkind, ih hts hfound]
          | false =>
              rw [unremarkedAll_cons hkind, List.find?_cons_of_neg (by simp [ht, hpt]),
                ih hts hfound]

theorem find?_unremarkedAll {p : ParseTree → Bool} (hp : ∀ t ∈ ts, p t.unremarked = p t)
    (hremark : ∀ t ∈ ts, t.isRemark = true → p t = false) :
    (unremarkedAll ts).find? p = (ts.find? p).map unremarked := by
  refine find?_unremarkedAll_of_found hp ?_
  intro t hfound
  by_contra hkind
  have hnot := hremark t (List.mem_of_find?_eq_some hfound) (by simpa using hkind)
  exact Bool.false_ne_true (hnot.symm.trans (List.find?_some hfound))

/-- What comments contribute nothing to is the same without them. -/
theorem flatMap_unremarkedAll {f g : ParseTree → List α}
    (hremark : ∀ t ∈ ts, t.isRemark = true → g t = [])
    (h : ∀ t ∈ ts, t.isRemark = false → f t.unremarked = g t) :
    (unremarkedAll ts).flatMap f = ts.flatMap g := by
  induction ts with
  | nil => rfl
  | cons t ts ih =>
      obtain ⟨hnil, hnils⟩ := List.forall_mem_cons.mp hremark
      obtain ⟨ht, hts⟩ := List.forall_mem_cons.mp h
      cases hkind : t.isRemark with
      | true =>
          rw [unremarkedAll_cons_of_remark hkind, List.flatMap_cons, hnil hkind, ih hnils hts,
            List.nil_append]
      | false =>
          rw [unremarkedAll_cons hkind, List.flatMap_cons, List.flatMap_cons, ht hkind,
            ih hnils hts]

theorem filterMap_unremarkedAll {f g : ParseTree → Option α}
    (hremark : ∀ t ∈ ts, t.isRemark = true → g t = none)
    (h : ∀ t ∈ ts, t.isRemark = false → f t.unremarked = g t) :
    (unremarkedAll ts).filterMap f = ts.filterMap g := by
  rw [List.filterMap_eq_flatMap_toList, List.filterMap_eq_flatMap_toList]
  refine flatMap_unremarkedAll ?_ ?_
  · intro t ht hkind
    rw [hremark t ht hkind, Option.toList_none]
  · intro t ht hkind
    rw [h t ht hkind]

/-- Only what no comment satisfies is picked from a row. -/
theorem map_filter_unremarkedAll {p : ParseTree → Bool} {f g : ParseTree → α}
    (hp : ∀ t, p t.unremarked = p t) (hremark : ∀ t ∈ ts, t.isRemark = true → p t = false)
    (h : ∀ t ∈ ts, f t.unremarked = g t) :
    ((unremarkedAll ts).filter p).map f = (ts.filter p).map g := by
  rw [filter_unremarkedAll hp, unremarkedAll_eq_map, List.map_map]
  · exact List.map_congr_left fun t ht => h t (List.mem_filter.mp ht).1
  · intro t ht
    obtain ⟨ht, hpt⟩ := List.mem_filter.mp ht
    by_contra hkind
    exact Bool.false_ne_true ((hremark t ht (by simpa using hkind)).symm.trans hpt)

theorem any_unremarkedAll {p q : ParseTree → Bool}
    (hremark : ∀ t ∈ ts, t.isRemark = true → q t = false)
    (h : ∀ t ∈ ts, p t.unremarked = q t) : (unremarkedAll ts).any p = ts.any q := by
  induction ts with
  | nil => rfl
  | cons t ts ih =>
      obtain ⟨hnot, hnots⟩ := List.forall_mem_cons.mp hremark
      obtain ⟨ht, hts⟩ := List.forall_mem_cons.mp h
      cases hkind : t.isRemark with
      | true =>
          rw [unremarkedAll_cons_of_remark hkind, List.any_cons, hnot hkind, ih hnots hts,
            Bool.false_or]
      | false => rw [unremarkedAll_cons hkind, List.any_cons, List.any_cons, ht, ih hnots hts]

end

/-! ## Finding nodes -/

theorem mem_of_firstOfKind? {t c : ParseTree} {kind : String}
    (h : t.firstOfKind? kind = some c) : c ∈ t.children :=
  List.mem_of_find?_eq_some h

theorem kind_of_firstOfKind? {t c : ParseTree} {kind : String}
    (h : t.firstOfKind? kind = some c) : c.kind = kind := by
  have hkind := List.find?_some h
  exact eq_of_beq hkind

theorem role_of_child? {t c : ParseTree} {role : String} (h : t.child? role = some c) :
    c.role = role := by
  have hrole := List.find?_some h
  exact eq_of_beq hrole

theorem parts_unremarked (t : ParseTree) : t.unremarked.parts = unremarkedAll t.parts := by
  rw [parts, children_unremarked, filter_unremarkedAll named_unremarked, parts]

theorem firstOfKind?_unremarked (t : ParseTree) {kind : String}
    (hkind : remarkKinds.contains kind = false) :
    t.unremarked.firstOfKind? kind = (t.firstOfKind? kind).map unremarked := by
  rw [firstOfKind?, children_unremarked]
  refine find?_unremarkedAll (fun c _ => by rw [kind_unremarked]) ?_
  intro c _ hremark
  rw [beq_eq_false_iff_ne]
  rintro rfl
  exact Bool.false_ne_true (hkind.symm.trans hremark)

/-- The comments below a node keep out of the way: they are comments of the grammar at hand, whole,
without a role, and none of them is among the children that are `heeded` whatever they are. -/
structure Discreet (own : ParseTree → Bool) (heeded : ParseTree → List ParseTree)
    (t : ParseTree) : Prop where
  own : ∀ c ∈ t.children, c.isRemark = true → own c = true
  role : ∀ c ∈ t.children, c.isRemark = true → c.role = ""
  sound : ∀ c ∈ t.children, c.isRemark = true → c.hasFault = false
  unheeded : ∀ c ∈ heeded t, c.isRemark = false

namespace Discreet

variable {own : ParseTree → Bool} {heeded : ParseTree → List ParseTree} {t : ParseTree}

theorem role_ne (h : t.Discreet own heeded) {role : String} (hrole : role ≠ "") :
    ∀ c ∈ t.children, c.isRemark = true → (c.role == role) = false := by
  intro c hc hremark
  rw [h.role c hc hremark, beq_eq_false_iff_ne]
  exact hrole.symm

theorem child?_unremarked (h : t.Discreet own heeded) {role : String} (hrole : role ≠ "") :
    t.unremarked.child? role = (t.child? role).map unremarked := by
  rw [child?, children_unremarked]
  exact find?_unremarkedAll (fun c _ => by rw [role_unremarked]) (h.role_ne hrole)

theorem textOf?_unremarked (h : t.Discreet own heeded) (source : List Char) {role : String}
    (hrole : role ≠ "") : t.unremarked.textOf? role source = t.textOf? role source := by
  rw [textOf?, h.child?_unremarked hrole, textOf?, Option.map_map]
  congr 1
  funext c
  exact text_unremarked c source

theorem childrenOf_unremarked (h : t.Discreet own heeded) {role : String} (hrole : role ≠ "") :
    t.unremarked.childrenOf role = (t.childrenOf role).map unremarked := by
  rw [childrenOf, children_unremarked, filter_unremarkedAll fun c => by rw [role_unremarked]]
  refine unremarkedAll_eq_map ?_
  intro c hc
  obtain ⟨hc, hmatch⟩ := List.mem_filter.mp hc
  by_contra hremark
  exact Bool.false_ne_true ((h.role_ne hrole c hc (by simpa using hremark)).symm.trans hmatch)

end Discreet

end ParseTree

end Precis
