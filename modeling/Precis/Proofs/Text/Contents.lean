import Precis.Proofs.Types.Brackets
import Precis.Text.Lines

/-! # The contents of lines

What the lines of a text say, apart from the white space around them and from blank lines. Neither
white space around the text nor the carriage returns before its line feeds matter for it. -/

namespace Precis.Text

/-- Lines without the white space around them, apart from blank lines. -/
def visible (rows : List (List Char)) : List (List Char) :=
  (rows.map trim).filter fun row => !row.isEmpty

/-- What the lines of a text say. -/
def contents (cs : List Char) : List (List Char) :=
  visible (cs.splitOn '\n')

theorem visible_append (xs ys : List (List Char)) :
    visible (xs ++ ys) = visible xs ++ visible ys := by
  rw [visible, List.map_append, List.filter_append]
  rfl

theorem visible_cons (row : List Char) (rows : List (List Char)) :
    visible (row :: rows) = visible [row] ++ visible rows :=
  visible_append [row] rows

theorem visible_congr {xs ys : List (List Char)} (h : xs.map trim = ys.map trim) :
    visible xs = visible ys := by
  rw [visible, h]
  rfl

/-- A line says the same with white space around it and without. -/
theorem visible_singleton_congr {xs ys : List Char} (h : trim xs = trim ys) :
    visible [xs] = visible [ys] :=
  visible_congr (congrArg (fun line => [line]) h)

/-! ## Line by line -/

/-- A text is one line, or a line, a line feed and a text. -/
@[elab_as_elim]
theorem lineInduction {motive : List Char → Prop} (line : ∀ xs, '\n' ∉ xs → motive xs)
    (more : ∀ xs ys, '\n' ∉ xs → motive ys → motive (xs ++ '\n' :: ys)) (cs : List Char) :
    motive cs := by
  induction hlength : cs.length using Nat.strongRecOn generalizing cs with
  | ind n ih =>
      by_cases h : '\n' ∈ cs
      · obtain ⟨xs, ys, rfl, hxs⟩ := List.eq_append_cons_of_mem h
        rw [List.length_append, List.length_cons] at hlength
        exact more xs ys hxs (ih ys.length (by omega) ys rfl)
      · exact line cs h

theorem contents_line {xs : List Char} (h : '\n' ∉ xs) : contents xs = visible [xs] := by
  rw [contents, List.splitOn_eq_singleton h]

theorem contents_append_newline (xs ys : List Char) :
    contents (xs ++ '\n' :: ys) = contents xs ++ contents ys := by
  rw [contents, List.splitOn_append_cons_self, visible_append]
  rfl

@[simp] theorem contents_nil : contents [] = [] := rfl

/-! ## White space around a text -/

theorem trim_append {ending : List Char} (h : allBlank ending = true) {xs : List Char} :
    trim (xs ++ ending) = trim xs :=
  trim_between (rfl : allBlank [] = true) h xs

theorem contents_blank_cons {c : Char} (hc : isBlank c = true) (cs : List Char) :
    contents (c :: cs) = contents cs := by
  by_cases hline : c = '\n'
  · rw [hline, ← List.nil_append ('\n' :: cs), contents_append_newline, contents_nil,
      List.nil_append]
  · have hnotMem : ∀ {xs : List Char}, '\n' ∉ xs → '\n' ∉ c :: xs := by
      intro xs hxs
      simp [Ne.symm hline, hxs]
    have hsame : ∀ xs, visible [c :: xs] = visible [xs] := by
      intro xs
      apply visible_singleton_congr
      rw [trim, trimStart, List.dropWhile_cons_of_pos hc]
      rfl
    induction cs using lineInduction with
    | line xs hxs => rw [contents_line (hnotMem hxs), contents_line hxs, hsame]
    | more xs ys hxs ih =>
        rw [← List.cons_append, contents_append_newline, contents_append_newline,
          contents_line (hnotMem hxs), contents_line hxs, hsame]

theorem contents_append_blank {c : Char} (hc : isBlank c = true) (cs : List Char) :
    contents (cs ++ [c]) = contents cs := by
  by_cases hline : c = '\n'
  · rw [hline, contents_append_newline, contents_nil, List.append_nil]
  · induction cs using lineInduction with
    | line xs hxs =>
        have hnotMem : '\n' ∉ xs ++ [c] := by simp [Ne.symm hline, hxs]
        rw [contents_line hnotMem, contents_line hxs]
        exact visible_singleton_congr (trim_append (by simp [allBlank, hc]))
    | more xs ys hxs ih =>
        rw [List.append_assoc, List.cons_append, contents_append_newline,
          contents_append_newline, ih]

theorem contents_between {before after : List Char} (hbefore : ∀ c ∈ before, isBlank c = true)
    (hafter : ∀ c ∈ after, isBlank c = true) (cs : List Char) :
    contents (before ++ (cs ++ after)) = contents cs := by
  induction before with
  | nil =>
      induction after using List.reverseRecOn with
      | nil => simp
      | append_singleton after c ih =>
          obtain ⟨hafter, hc⟩ := List.forall_mem_append.mp hafter
          rw [← List.append_assoc, ← List.append_assoc,
            contents_append_blank (hc c List.mem_cons_self), List.append_assoc, ih hafter]
  | cons c before ih =>
      obtain ⟨hc, hbefore⟩ := List.forall_mem_cons.mp hbefore
      rw [List.cons_append, contents_blank_cons hc, ih hbefore]

theorem contents_trim (cs : List Char) : contents (trim cs) = contents cs := by
  obtain ⟨before, after, hcs, hbefore, hafter⟩ := trim_spec cs
  conv => rhs; rw [hcs]
  exact (contents_between hbefore hafter (trim cs)).symm

/-! ## Lines as they are read -/

theorem lines_cons {c : Char} {cs line : List Char} {rest : List (List Char)} (hc : c ≠ '\n')
    (hreturn : c = '\r' → ∀ tail, cs ≠ '\n' :: tail) (h : lines cs = line :: rest) :
    lines (c :: cs) = (c :: line) :: rest := by
  rw [lines.eq_4 c cs hc fun tail hr => hreturn hr tail, h]

theorem lines_line {xs : List Char} (h : '\n' ∉ xs) (hne : xs ≠ []) : lines xs = [xs] := by
  induction xs with
  | nil => exact absurd rfl hne
  | cons c xs ih =>
      obtain ⟨hc, hxs⟩ : '\n' ≠ c ∧ '\n' ∉ xs := by simpa using h
      cases xs with
      | nil => rw [lines.eq_4 c [] (Ne.symm hc) fun _ _ => nofun]; rfl
      | cons d xs =>
          refine lines_cons (Ne.symm hc) ?_ (ih hxs (List.cons_ne_nil d xs))
          rintro - tail heq
          exact hxs (heq ▸ List.mem_cons_self)

/-- A line before a line feed, without the carriage return that may stand there. -/
theorem lines_append_newline {xs : List Char} (h : '\n' ∉ xs) (ys : List Char) :
    ∃ line ending, xs = line ++ ending ∧ allBlank ending = true ∧
      lines (xs ++ '\n' :: ys) = line :: lines ys := by
  induction xs with
  | nil => exact ⟨[], [], rfl, rfl, by rw [List.nil_append, lines]⟩
  | cons c xs ih =>
      obtain ⟨hc, hxs⟩ : '\n' ≠ c ∧ '\n' ∉ xs := by simpa using h
      obtain ⟨line, ending, rfl, hending, hlines⟩ := ih hxs
      by_cases hreturn : c = '\r' ∧ line ++ ending = []
      · obtain ⟨rfl, hnil⟩ := hreturn
        refine ⟨[], ['\r'], by rw [hnil]; rfl, by decide, ?_⟩
        rw [hnil, List.cons_append, List.nil_append, lines]
      · refine ⟨c :: line, ending, rfl, hending, lines_cons (Ne.symm hc) ?_ hlines⟩
        rintro rfl tail heq
        cases hxs' : line ++ ending with
        | nil => exact hreturn ⟨rfl, hxs'⟩
        | cons d ds =>
            rw [hxs'] at heq hxs
            obtain rfl : d = '\n' := (List.cons.inj heq).1
            exact hxs List.mem_cons_self

theorem newline_notMem_lines (cs : List Char) : ∀ line ∈ lines cs, '\n' ∉ line := by
  induction cs using lineInduction with
  | line xs hxs =>
      by_cases hne : xs = []
      · simp [hne, lines]
      · rw [lines_line hxs hne]
        exact List.forall_mem_singleton.mpr hxs
  | more xs ys hxs ih =>
      obtain ⟨line, ending, rfl, -, hlines⟩ := lines_append_newline hxs ys
      rw [hlines]
      refine List.forall_mem_cons.mpr ⟨?_, ih⟩
      intro hmem
      exact hxs (List.mem_append_left ending hmem)

/-- The contents are those of the lines that are read. -/
theorem contents_eq_lines (cs : List Char) : contents cs = visible (lines cs) := by
  induction cs using lineInduction with
  | line xs hxs =>
      by_cases hne : xs = []
      · rw [hne]
        rfl
      · rw [contents_line hxs, lines_line hxs hne]
  | more xs ys hxs ih =>
      obtain ⟨line, ending, rfl, hending, hlines⟩ := lines_append_newline hxs ys
      rw [contents_append_newline, contents_line hxs, ih, hlines, visible_cons line,
        visible_singleton_congr (trim_append hending)]

/-- Lines that are put together say what they said before. -/
theorem contents_joinWith {rows : List (List Char)} (h : ∀ row ∈ rows, '\n' ∉ row) :
    contents (joinWith ['\n'] rows) = visible rows := by
  induction rows with
  | nil => rfl
  | cons row rest ih =>
      obtain ⟨hrow, hrest⟩ := List.forall_mem_cons.mp h
      cases rest with
      | nil => exact contents_line hrow
      | cons next rest =>
          rw [joinWith, List.append_assoc, List.singleton_append, contents_append_newline,
            contents_line hrow, ih hrest, ← visible_cons]

end Precis.Text
