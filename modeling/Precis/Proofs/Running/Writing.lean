import Precis.Folder
import Precis.Proofs.Except

/-! # Writing to a folder

A text that is written to a path is what the path leads to afterwards, and no other file changes, also
if the text does not go through as a whole. Writing takes away no directory, so that the path is
followed in the same way before and after. -/

namespace Precis

namespace Outlet

/-- A text goes through as a whole. -/
def Takes (outlet : Outlet) (text : List Char) : Prop :=
  outlet.refusal? text = none

theorem passed_isPrefix (outlet : Outlet) (text : List Char) : outlet.passed text <+: text := by
  cases outlet with
  | free => exact List.prefix_rfl
  | tight room reason => exact List.take_prefix room text
  | shut reason => exact List.nil_prefix

theorem Takes.passed_eq {outlet : Outlet} {text : List Char} (h : outlet.Takes text) :
    outlet.passed text = text := by
  cases outlet with
  | free => rfl
  | tight room reason =>
      have hroom : text.length ≤ room := by simpa [Takes, refusal?] using h
      exact List.take_of_length_le hroom
  | shut reason => cases h

end Outlet

namespace Folder

/-! ## Files put in place -/

theorem fileAt?_put_self (f : Folder) (place : Place) (source : Source) :
    (f.put place source).fileAt? place = some source := by
  simp [fileAt?, put]

theorem fileAt?_put_of_ne (f : Folder) {place other : Place} (source : Source)
    (h : other ≠ place) : (f.put place source).fileAt? other = f.fileAt? other := by
  have hother : (other == place) = false := by simpa using h
  have hlookup : ∀ files : List (Place × Source),
      (files.filter fun file => file.1 != place).lookup other = files.lookup other := by
    intro files
    induction files with
    | nil => rfl
    | cons file rest ih =>
        obtain ⟨spot, content⟩ := file
        by_cases hspot : spot = place
        · subst hspot
          simp [List.lookup_cons, ih, hother]
        · simp [List.lookup_cons, ih, hspot]
  simp [fileAt?, put, List.lookup_cons, hother, hlookup]

theorem isDirectory_put {f : Folder} {place p : Place} (source : Source)
    (h : f.isDirectory p = true) : (f.put place source).isDirectory p = true := by
  simp only [isDirectory, put, Bool.or_eq_true, List.any_eq_true, List.mem_cons, List.mem_filter]
    at h ⊢
  rcases h with h | ⟨file, hfile, h⟩
  · exact .inl h
  · right
    by_cases hplace : file.1 = place
    · exact ⟨(place, source), .inl rfl, hplace ▸ h⟩
    · exact ⟨file, .inr ⟨hfile, by simpa using hplace⟩, h⟩

theorem follow_put {f : Folder} {place p q : Place} {name : String} (source : Source)
    (h : f.follow p name = .ok q) : (f.put place source).follow p name = .ok q := by
  unfold follow at h ⊢
  split_ifs at h with hdirectory hlimit
  rw [if_pos (isDirectory_put source hdirectory), if_neg hlimit]
  exact h

theorem foldlM_follow_put {f : Folder} {place p q : Place} {names : List String}
    (source : Source) (h : names.foldlM f.follow p = .ok q) :
    names.foldlM (f.put place source).follow p = .ok q := by
  induction names generalizing p with
  | nil => exact h
  | cons name rest ih =>
      rw [List.foldlM_cons] at h ⊢
      obtain ⟨next, hnext, hrest⟩ := bind_eq_ok.mp h
      exact bind_eq_ok.mpr ⟨next, follow_put source hnext, ih hrest⟩

/-! ## Paths for writing -/

/-- Names that do not end in an empty one lose nothing when empty names are taken off their end. -/
theorem trimmed_eq {names : List String}
    (h : ¬ ((names.reverse.dropWhile (· == "")).reverse).length < names.length) :
    (names.reverse.dropWhile (· == "")).reverse = names := by
  have hsuffix := List.dropWhile_suffix (l := names.reverse) (· == "")
  have hlength : (names.reverse.dropWhile (· == "")).length = names.reverse.length := by
    have := hsuffix.length_le
    simp only [List.length_reverse] at h this ⊢
    omega
  rw [hsuffix.eq_of_length hlength, List.reverse_reverse]

/-- A path that can be written to leads to the place that is written. -/
theorem resolve_of_target {f : Folder} {path : String} {place : Place}
    (h : f.target path = .ok place) : f.resolve path = .ok place := by
  unfold target at h
  dsimp only at h
  by_cases hlimit : pathLimit < path.utf8ByteSize
  · rw [if_pos hlimit] at h
    cases h
  rw [if_neg hlimit] at h
  cases hlast : ((names path).reverse.dropWhile (· == "")).reverse.getLast? with
  | none =>
      rw [hlast] at h
      cases h
  | some last =>
      rw [hlast] at h
      obtain ⟨parent, hparent, h⟩ := bind_eq_ok.mp h
      obtain ⟨found, hfound, h⟩ := bind_eq_ok.mp h
      split_ifs at h with hbad
      obtain rfl := Except.ok.inj h
      simp only [not_or, decide_eq_true_eq, Bool.not_eq_true] at hbad
      obtain ⟨hslashed, -⟩ := hbad
      have hnames := trimmed_eq hslashed
      rw [hnames] at hlast hparent
      rw [if_neg (by simpa using hslashed)] at hfound
      have hpath : path ≠ "" := by
        rintro rfl
        simp [names] at hnames
      rw [resolve, if_neg hpath, if_neg hlimit, ← List.dropLast_append_getLast? last hlast,
        List.foldlM_append]
      exact bind_eq_ok.mpr ⟨parent, hparent, bind_eq_ok.mpr ⟨found, hfound, rfl⟩⟩

theorem resolve_put {f : Folder} {place q : Place} {path : String} (source : Source)
    (h : f.resolve path = .ok q) : (f.put place source).resolve path = .ok q := by
  unfold resolve at h ⊢
  split_ifs at h ⊢ with hempty hlimit
  exact foldlM_follow_put source h

/-! ## Written texts -/

/-- A path can be written to, and what it leads to takes a text as a whole. -/
def Takes (f : Folder) (path : String) (text : List Char) : Prop :=
  ∃ place, f.target path = .ok place ∧ (f.outletAt place).Takes text

/-- A text stands at a path, and all other files are as before. -/
structure Rewritten (f : Folder) (path : String) (text : List Char) (g : Folder) : Prop where
  read : g.read? path = some (.ofText text)
  others : ∃ place, f.target path = .ok place ∧
    ∀ other ≠ place, g.fileAt? other = f.fileAt? other

theorem rewritten_put {f : Folder} {path : String} {place : Place} (text : List Char)
    (h : f.target path = .ok place) : f.Rewritten path text (f.put place (.ofText text)) where
  read := by
    rw [read?, resolve_put _ (resolve_of_target h)]
    exact fileAt?_put_self f place _
  others := ⟨place, h, fun _ hother => fileAt?_put_of_ne f _ hother⟩

/-- What writing to a path does, unless the path leads nowhere or to an outlet that is shut. -/
theorem write_eq {f : Folder} {path : String} {place : Place} (text : List Char)
    (htarget : f.target path = .ok place) (hopen : ∀ reason, f.outletAt place ≠ .shut reason) :
    f.write path text =
      (f.put place (.ofText ((f.outletAt place).passed text)), (f.outletAt place).refusal? text) := by
  simp only [write, htarget]

theorem write_of_takes {f : Folder} {path : String} {text : List Char} (h : f.Takes path text) :
    ∃ g, f.write path text = (g, none) ∧ f.Rewritten path text g := by
  obtain ⟨place, htarget, htakes⟩ := h
  refine ⟨_, ?_, rewritten_put text htarget⟩
  have hopen : ∀ reason, f.outletAt place ≠ .shut reason := by
    intro reason hshut
    simp [Outlet.Takes, hshut, Outlet.refusal?] at htakes
  rw [write_eq text htarget hopen, htakes.passed_eq, htakes]

/-- A text that is not taken as a whole leaves at most a beginning of itself. -/
theorem write_of_not_takes {f : Folder} {path : String} {text : List Char}
    (h : ¬ f.Takes path text) :
    ∃ g reason, f.write path text = (g, some reason) ∧
      (g = f ∨ ∃ cut, cut <+: text ∧ f.Rewritten path cut g) := by
  cases htarget : f.target path with
  | error fault => exact ⟨f, fault.message, by simp only [write, htarget], .inl rfl⟩
  | ok place =>
      obtain ⟨reason, hrefusal⟩ : ∃ reason, (f.outletAt place).refusal? text = some reason :=
        Option.ne_none_iff_exists'.mp fun hnone => h ⟨place, htarget, hnone⟩
      by_cases hopen : ∀ reason, f.outletAt place ≠ .shut reason
      · refine ⟨_, reason, by rw [write_eq text htarget hopen, hrefusal], .inr ?_⟩
        exact ⟨_, (f.outletAt place).passed_isPrefix text, rewritten_put _ htarget⟩
      · obtain ⟨other, hshut⟩ : ∃ other, f.outletAt place = .shut other := by simpa using hopen
        exact ⟨f, other, by simp only [write, htarget, hshut], .inl rfl⟩

end Folder

end Precis
