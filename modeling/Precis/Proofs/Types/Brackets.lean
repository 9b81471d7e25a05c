import Precis.Text.Brackets
import Mathlib.Data.List.DropRight
import Mathlib.Data.List.TakeWhile

/-! # Scanning balanced texts

Three scanners look at the brackets of a text: one asks whether they balance, one whether the last
character closes the first bracket, and one cuts the text at separators outside brackets. On a
balanced beginning all three come out where they went in. A text is solid if it balances and no
character that could cut it stands outside its brackets. -/

namespace Precis.Text

/-! ## White space around a text -/

/-- A text that is not empty and neither starts nor ends with white space. -/
structure Tight (cs : List Char) : Prop where
  first : ∃ c rest, cs = c :: rest ∧ isBlank c = false
  last : ∃ rest c, cs = rest ++ [c] ∧ isBlank c = false

theorem Tight.ne_nil {cs : List Char} (h : Tight cs) : cs ≠ [] := by
  obtain ⟨c, rest, rfl, -⟩ := h.first
  exact List.cons_ne_nil c rest

theorem Tight.append {cs : List Char} {c : Char} (h : Tight cs) (others : List Char)
    (hc : isBlank c = false) : Tight (cs ++ (others ++ [c])) := by
  obtain ⟨d, rest, rfl, hd⟩ := h.first
  exact ⟨⟨d, _, rfl, hd⟩, ⟨(d :: rest) ++ others, c, by simp, hc⟩⟩

theorem trimEnd_append_singleton {cs : List Char} {c : Char} (hc : isBlank c = false) :
    trimEnd (cs ++ [c]) = cs ++ [c] := by
  simp [trimEnd, dropEndWhile, hc]

theorem Tight.trim_eq {cs : List Char} (h : Tight cs) : trim cs = cs := by
  obtain ⟨c, rest, hfirst, hc⟩ := h.first
  obtain ⟨front, d, hlast, hd⟩ := h.last
  have hstart : trimStart cs = cs := by
    rw [hfirst, trimStart, List.dropWhile_cons_of_neg (by simp [hc])]
  rw [trim, hstart, hlast, trimEnd_append_singleton hd]

/-- Only white space is trimmed from the end. -/
theorem trimStart_eq (cs : List Char) :
    ∃ after, trimStart cs = trim cs ++ after ∧ ∀ c ∈ after, isBlank c = true := by
  refine ⟨((trimStart cs).reverse.takeWhile isBlank).reverse, ?_, ?_⟩
  · rw [trim, trimEnd, dropEndWhile, ← List.reverse_append, List.takeWhile_append_dropWhile,
      List.reverse_reverse]
  · intro c hc
    exact List.mem_takeWhile_imp (List.mem_reverse.mp hc)

/-- A text is what trimming leaves of it, between white space. -/
theorem trim_spec (cs : List Char) :
    ∃ before after, cs = before ++ (trim cs ++ after) ∧ (∀ c ∈ before, isBlank c = true) ∧
      ∀ c ∈ after, isBlank c = true := by
  obtain ⟨after, hafter, hblank⟩ := trimStart_eq cs
  refine ⟨cs.takeWhile isBlank, after, ?_, fun c => List.mem_takeWhile_imp, hblank⟩
  rw [← hafter, trimStart, List.takeWhile_append_dropWhile]

theorem trim_eq_nil_iff {cs : List Char} : trim cs = [] ↔ allBlank cs = true := by
  constructor
  · intro h
    obtain ⟨before, after, hcs, hbefore, hafter⟩ := trim_spec cs
    rw [hcs, h, allBlank, List.all_eq_true]
    intro c hc
    simp only [List.nil_append, List.mem_append] at hc
    exact hc.elim (hbefore c) (hafter c)
  · intro h
    have hstart : trimStart cs = [] := List.dropWhile_eq_nil_iff.mpr (List.all_eq_true.mp h)
    rw [trim, hstart]
    rfl

theorem Tight.allBlank_eq {cs : List Char} (h : Tight cs) : allBlank cs = false := by
  by_contra hblank
  rw [Bool.not_eq_false, ← trim_eq_nil_iff, h.trim_eq] at hblank
  exact h.ne_nil hblank

theorem tight_trim {cs : List Char} (h : allBlank cs = false) : Tight (trim cs) := by
  have hne : trim cs ≠ [] := by
    rw [ne_eq, trim_eq_nil_iff, h]
    exact Bool.false_ne_true
  obtain ⟨c, rest, hcs⟩ := List.exists_cons_of_ne_nil hne
  constructor
  · -- Trimming the end leaves the first character that is not blank.
    obtain ⟨after, hafter, -⟩ := trimStart_eq cs
    have hstart : cs.dropWhile isBlank = c :: (rest ++ after) := by
      rw [← List.cons_append, ← hcs]
      exact hafter
    have hhead := List.head_dropWhile_not isBlank (hstart ▸ List.cons_ne_nil _ _)
    simp only [hstart, List.head_cons] at hhead
    exact ⟨c, rest, hcs, hhead⟩
  · have hrev : (trimStart cs).reverse.dropWhile isBlank ≠ [] := by
      intro hnil
      exact hne (by rw [trim, trimEnd, dropEndWhile, hnil]; rfl)
    have hlast := List.head_dropWhile_not isBlank hrev
    rw [← List.getLast_reverse (by simpa using hrev)] at hlast
    exact ⟨_, _, (List.dropLast_concat_getLast hne).symm, hlast⟩

theorem trim_trim (cs : List Char) : trim (trim cs) = trim cs := by
  cases h : allBlank cs with
  | true =>
      rw [trim_eq_nil_iff.mpr h]
      rfl
  | false => exact (tight_trim h).trim_eq

theorem trimStart_append {cs : List Char} (h : allBlank cs = false) (others : List Char) :
    trimStart (cs ++ others) = trimStart cs ++ others := by
  have hne : (cs.dropWhile isBlank).isEmpty = false := by
    by_contra hnil
    have hblank : allBlank cs = true := List.all_eq_true.mpr
      (List.dropWhile_eq_nil_iff.mp (List.isEmpty_iff.mp (by simpa using hnil)))
    rw [h] at hblank
    cases hblank
  rw [trimStart, List.dropWhile_append, hne]
  rfl

/-- White space around a text does not matter for what trimming leaves. -/
theorem trim_between {before after : List Char} (hbefore : allBlank before = true)
    (hafter : allBlank after = true) (cs : List Char) :
    trim (before ++ (cs ++ after)) = trim cs := by
  have hstart : trimStart (before ++ (cs ++ after)) = trimStart (cs ++ after) := by
    rw [trimStart, List.dropWhile_append_of_pos (List.all_eq_true.mp hbefore), trimStart]
  rw [trim, hstart]
  cases h : allBlank cs with
  | true =>
      have hall : allBlank (cs ++ after) = true := by
        rw [allBlank, List.all_append, Bool.and_eq_true]
        exact ⟨h, hafter⟩
      rw [trim_eq_nil_iff.mpr h]
      exact trim_eq_nil_iff.mpr hall
  | false =>
      have hend : ∀ c ∈ after.reverse, isBlank c = true := by
        intro c hc
        exact List.all_eq_true.mp hafter c (List.mem_reverse.mp hc)
      rw [trimStart_append h, trimEnd, dropEndWhile, List.reverse_append,
        List.dropWhile_append_of_pos hend]
      rfl

/-- Behind a character that is not blank nothing is trimmed. -/
theorem trim_append_of_last {cs : List Char} {c : Char} (h : allBlank cs = false)
    (others : List Char) (hc : isBlank c = false) :
    trim (cs ++ (others ++ [c])) = trimStart cs ++ (others ++ [c]) := by
  rw [trim, trimStart_append h, ← List.append_assoc, trimEnd_append_singleton hc]

theorem trim_trimStart (cs : List Char) : trim (trimStart cs) = trim cs := by
  rw [trim, trimStart, trimStart, List.dropWhile_idempotent]
  rfl

theorem allBlank_trimStart {cs : List Char} (h : allBlank cs = false) :
    allBlank (trimStart cs) = false := by
  rw [← h, ← Bool.coe_iff_coe, ← trim_eq_nil_iff, ← trim_eq_nil_iff, trim_trimStart]

namespace Brackets

variable {b : Brackets} {cuts : Char → Bool}

/-! ## Solid texts -/

/-- A text closes `depth` brackets that were opened before it and all that it opens itself, and no
character that cuts stands where no bracket is open. -/
inductive Solid (b : Brackets) (cuts : Char → Bool) : Nat → List Char → Prop where
  | nil : Solid b cuts 0 []
  | opener {depth : Nat} {c : Char} {cs : List Char} (hopens : b.opens c = true)
      (h : Solid b cuts (depth + 1) cs) : Solid b cuts depth (c :: cs)
  | closer {depth : Nat} {c : Char} {cs : List Char} (hopens : b.opens c = false)
      (hcloses : b.closes c = true) (h : Solid b cuts depth cs) :
      Solid b cuts (depth + 1) (c :: cs)
  | other {depth : Nat} {c : Char} {cs : List Char} (hopens : b.opens c = false)
      (hcloses : b.closes c = false) (hcuts : cuts c = true → 0 < depth)
      (h : Solid b cuts depth cs) : Solid b cuts depth (c :: cs)

/-- A text that closes what it opens and what was opened before it; nothing cuts it. -/
abbrev Closing (b : Brackets) : Nat → List Char → Prop :=
  Solid b fun _ => false

theorem Solid.closing {depth : Nat} {cs : List Char} (h : b.Solid cuts depth cs) :
    b.Closing depth cs := by
  induction h with
  | nil => exact .nil
  | opener hopens _ ih => exact .opener hopens ih
  | closer hopens hcloses _ ih => exact .closer hopens hcloses ih
  | other hopens hcloses _ _ ih => exact .other hopens hcloses nofun ih

/-- Whether a text is solid, found out from left to right. -/
def solidFrom (b : Brackets) (cuts : Char → Bool) : Nat → List Char → Bool
  | depth, [] => depth == 0
  | depth, c :: cs =>
    if b.opens c then b.solidFrom cuts (depth + 1) cs
    else if b.closes c then decide (0 < depth) && b.solidFrom cuts (depth - 1) cs
    else (!cuts c || decide (0 < depth)) && b.solidFrom cuts depth cs

theorem solidFrom_iff {depth : Nat} {cs : List Char} :
    b.solidFrom cuts depth cs = true ↔ b.Solid cuts depth cs := by
  constructor
  · intro h
    induction cs generalizing depth with
    | nil =>
        obtain rfl : depth = 0 := by simpa [solidFrom] using h
        exact .nil
    | cons c cs ih =>
        rw [solidFrom] at h
        split_ifs at h with hopens hcloses
        · exact .opener hopens (ih h)
        · obtain ⟨hdepth, hrest⟩ : 0 < depth ∧ b.solidFrom cuts (depth - 1) cs = true := by
            simpa using h
          have hclosed := Solid.closer (by simpa using hopens) hcloses (ih hrest)
          rwa [Nat.sub_add_cancel hdepth] at hclosed
        · obtain ⟨hcuts, hrest⟩ : (cuts c = false ∨ 0 < depth) ∧
              b.solidFrom cuts depth cs = true := by
            simpa using h
          refine .other (by simpa using hopens) (by simpa using hcloses) ?_ (ih hrest)
          intro hcut
          exact hcuts.resolve_left (by simp [hcut])
  · intro h
    induction h with
    | nil => rfl
    | opener hopens _ ih => simpa [solidFrom, hopens] using ih
    | closer hopens hcloses _ ih => simpa [solidFrom, hopens, hcloses] using ih
    | @other depth c cs hopens hcloses hcuts _ ih =>
        cases hcut : cuts c with
        | false => simpa [solidFrom, hopens, hcloses, hcut] using ih
        | true => simpa [solidFrom, hopens, hcloses, hcut, hcuts hcut] using ih

instance (depth : Nat) (cs : List Char) : Decidable (b.Solid cuts depth cs) :=
  decidable_of_iff _ solidFrom_iff

theorem balancedFrom_eq_solidFrom (depth : Nat) (cs : List Char) :
    b.balancedFrom depth cs = b.solidFrom (fun _ => false) depth cs := by
  induction cs generalizing depth with
  | nil => rfl
  | cons c cs ih =>
      rw [balancedFrom.eq_def, solidFrom]
      cases depth <;> simp [ih]

/-- The scan for balance accepts the closing texts. -/
theorem balancedFrom_iff {depth : Nat} {cs : List Char} :
    b.balancedFrom depth cs = true ↔ b.Closing depth cs := by
  rw [balancedFrom_eq_solidFrom, solidFrom_iff]

/-! ## Characters that do not matter -/

/-- A character that neither opens nor closes nor cuts. -/
structure IsPlain (b : Brackets) (cuts : Char → Bool) (c : Char) : Prop where
  opens : b.opens c = false
  closes : b.closes c = false
  cuts : cuts c = false

theorem IsPlain.solid_cons_iff {depth : Nat} {c : Char} {cs : List Char}
    (h : b.IsPlain cuts c) : b.Solid cuts depth (c :: cs) ↔ b.Solid cuts depth cs := by
  constructor
  · intro hsolid
    cases hsolid with
    | opener hopens _ => rw [h.opens] at hopens; cases hopens
    | closer _ hcloses _ => rw [h.closes] at hcloses; cases hcloses
    | other _ _ _ hrest => exact hrest
  · exact .other h.opens h.closes (by simp [h.cuts])

theorem solid_plain_append_iff {depth : Nat} {xs ys : List Char}
    (h : ∀ c ∈ xs, b.IsPlain cuts c) :
    b.Solid cuts depth (xs ++ ys) ↔ b.Solid cuts depth ys := by
  induction xs with
  | nil => rfl
  | cons c xs ih =>
      obtain ⟨hc, hxs⟩ := List.forall_mem_cons.mp h
      rw [List.cons_append, hc.solid_cons_iff, ih hxs]

theorem solid_of_plain {xs : List Char} (h : ∀ c ∈ xs, b.IsPlain cuts c) : b.Solid cuts 0 xs := by
  rw [← List.append_nil xs, solid_plain_append_iff h]
  exact .nil

/-! ## Texts in a row -/

/-- Outside brackets, solid texts may follow each other. -/
theorem Solid.append {depth : Nat} {xs ys : List Char} (h : b.Solid cuts depth xs)
    (hys : b.Solid cuts 0 ys) : b.Solid cuts depth (xs ++ ys) := by
  induction h with
  | nil => exact hys
  | opener hopens _ ih => exact .opener hopens ih
  | closer hopens hcloses _ ih => exact .closer hopens hcloses ih
  | other hopens hcloses hcuts _ ih => exact .other hopens hcloses hcuts ih

/-- Inside a bracket nothing cuts, so that any balanced text may stand there. -/
theorem Solid.inside {inner : Nat} {xs ys : List Char} (h : b.Closing inner xs) {depth : Nat}
    (hys : b.Solid cuts (depth + 1) ys) : b.Solid cuts (depth + 1 + inner) (xs ++ ys) := by
  induction h with
  | nil => exact hys
  | opener hopens _ ih => exact .opener hopens ih
  | closer hopens hcloses _ ih => exact .closer hopens hcloses ih
  | other hopens hcloses _ _ ih => exact .other hopens hcloses (fun _ => by omega) ih

/-- A balanced beginning of a solid text is solid. -/
theorem Solid.of_append {inner : Nat} {xs ys : List Char}
    (hsolid : b.Solid cuts inner (xs ++ ys)) (h : b.Closing inner xs) : b.Solid cuts inner xs := by
  induction h with
  | nil => exact .nil
  | opener hopens _ ih =>
      cases hsolid with
      | opener _ hrest => exact .opener hopens (ih hrest)
      | closer hopens' _ _ => rw [hopens] at hopens'; cases hopens'
      | other hopens' _ _ _ => rw [hopens] at hopens'; cases hopens'
  | closer hopens hcloses _ ih =>
      cases hsolid with
      | opener hopens' _ => rw [hopens] at hopens'; cases hopens'
      | closer _ _ hrest => exact .closer hopens hcloses (ih hrest)
      | other _ hcloses' _ _ => rw [hcloses] at hcloses'; cases hcloses'
  | other hopens hcloses _ _ ih =>
      cases hsolid with
      | opener hopens' _ => rw [hopens] at hopens'; cases hopens'
      | closer _ hcloses' _ => rw [hcloses] at hcloses'; cases hcloses'
      | other _ _ hcuts hrest => exact .other hopens hcloses hcuts (ih hrest)

/-- Plain characters at the end do not matter. -/
theorem Solid.of_append_plain {depth : Nat} {xs ys : List Char}
    (hsolid : b.Solid cuts depth (xs ++ ys)) (h : ∀ c ∈ ys, b.IsPlain cuts c) :
    b.Solid cuts depth xs := by
  induction xs generalizing depth with
  | nil =>
      have hrest := (solid_plain_append_iff h).mp (List.append_nil ys ▸ hsolid)
      exact hrest
  | cons c xs ih =>
      cases hsolid with
      | opener hopens hrest => exact .opener hopens (ih hrest)
      | closer hopens hcloses hrest => exact .closer hopens hcloses (ih hrest)
      | other hopens hcloses hcuts hrest => exact .other hopens hcloses hcuts (ih hrest)

/-- A text that closes all brackets does not end with an opening one. -/
theorem Solid.opens_last {depth : Nat} {xs : List Char} {c : Char}
    (h : b.Solid cuts depth (xs ++ [c])) : b.opens c = false := by
  induction xs generalizing depth with
  | nil =>
      cases h with
      | opener _ hrest => cases hrest
      | closer hopens _ _ => exact hopens
      | other hopens _ _ _ => exact hopens
  | cons d xs ih =>
      cases h with
      | opener _ hrest => exact ih hrest
      | closer _ _ hrest => exact ih hrest
      | other _ _ _ hrest => exact ih hrest

/-! ## The bracket that ends a text -/

/-- With brackets open, a text closes the outermost of them with its last character exactly if it
is a balanced text and a closing bracket. -/
theorem closesAtEnd_iff {depth : Nat} {cs : List Char} :
    b.closesAtEnd depth cs = true ↔
      ∃ inner closer, cs = inner ++ [closer] ∧ b.Closing depth inner ∧
        b.opens closer = false ∧ b.closes closer = true := by
  constructor
  · intro h
    induction cs generalizing depth with
    | nil => cases h
    | cons c cs ih =>
        rw [closesAtEnd.eq_def] at h
        dsimp only at h
        split_ifs at h with hopens hcloses
        · obtain ⟨inner, closer, rfl, hinner, hcloser⟩ := ih h
          exact ⟨c :: inner, closer, rfl, .opener hopens hinner, hcloser⟩
        · have hopens : b.opens c = false := by simpa using hopens
          cases depth with
          | zero =>
              obtain rfl := List.isEmpty_iff.mp h
              exact ⟨[], c, rfl, .nil, hopens, hcloses⟩
          | succ outer =>
              obtain ⟨inner, closer, rfl, hinner, hcloser⟩ := ih h
              exact ⟨c :: inner, closer, rfl, .closer hopens hcloses hinner, hcloser⟩
        · obtain ⟨inner, closer, rfl, hinner, hcloser⟩ := ih h
          exact ⟨c :: inner, closer, rfl,
            .other (by simpa using hopens) (by simpa using hcloses) nofun hinner, hcloser⟩
  · rintro ⟨inner, closer, rfl, hinner, hopens, hcloses⟩
    induction hinner with
    | nil => simp [closesAtEnd, hopens, hcloses]
    | opener hopens _ ih => simpa [closesAtEnd, hopens] using ih
    | closer hopens hcloses _ ih => simpa [closesAtEnd, hopens, hcloses] using ih
    | @other depth c cs hopens hcloses _ _ ih =>
        cases depth <;> simpa [closesAtEnd, hopens, hcloses] using ih

/-! ## Cutting -/

theorem foldr_pushFirst_cons (xs part : List Char) (rest : List (List Char)) :
    xs.foldr pushFirst (part :: rest) = (xs ++ part) :: rest := by
  induction xs with
  | nil => rfl
  | cons x xs ih => rw [List.foldr_cons, ih, pushFirst, List.cons_append]

section Steps

variable {separator c : Char}

theorem splitFrom_opener (hopens : b.opens c = true) (depth : Nat) (cs : List Char) :
    b.splitFrom separator depth (c :: cs) =
      pushFirst c (b.splitFrom separator (depth + 1 : Nat) cs) := by
  rw [splitFrom, if_pos hopens, Int.natCast_succ]

theorem splitFrom_closer (hopens : b.opens c = false) (hcloses : b.closes c = true) (depth : Nat)
    (cs : List Char) :
    b.splitFrom separator (depth + 1 : Nat) (c :: cs) =
      pushFirst c (b.splitFrom separator depth cs) := by
  have hdepth : ((depth + 1 : Nat) : Int) - 1 = (depth : Int) := by omega
  rw [splitFrom, if_neg (by simp [hopens]), if_pos hcloses, hdepth]

theorem splitFrom_separator (hopens : b.opens separator = false)
    (hcloses : b.closes separator = false) (cs : List Char) :
    b.splitFrom separator 0 (separator :: cs) = [] :: b.splitFrom separator 0 cs := by
  simp [splitFrom, hopens, hcloses]

theorem splitFrom_other (hopens : b.opens c = false) (hcloses : b.closes c = false) {depth : Int}
    (hcut : c = separator → depth ≠ 0) (cs : List Char) :
    b.splitFrom separator depth (c :: cs) = pushFirst c (b.splitFrom separator depth cs) := by
  rw [splitFrom, if_neg (by simp [hopens]), if_neg (by simp [hcloses]),
    if_neg fun hboth => hcut hboth.1 hboth.2]

end Steps

/-- A solid beginning goes as a whole into the first part. -/
theorem splitFrom_append {separator : Char} {inner : Nat} {xs : List Char}
    (h : b.Solid (· == separator) inner xs) (ys : List Char) :
    b.splitFrom separator inner (xs ++ ys) = xs.foldr pushFirst (b.splitFrom separator 0 ys) := by
  induction h with
  | nil => rfl
  | opener hopens _ ih =>
      rw [List.cons_append, splitFrom_opener hopens]
      exact congrArg (pushFirst _) ih
  | closer hopens hcloses _ ih =>
      rw [List.cons_append, splitFrom_closer hopens hcloses]
      exact congrArg (pushFirst _) ih
  | other hopens hcloses hcuts _ ih =>
      rw [List.cons_append, splitFrom_other hopens hcloses]
      · exact congrArg (pushFirst _) ih
      · intro hc
        have hpos := hcuts (beq_iff_eq.mpr hc)
        omega

/-- A solid text is its only part. -/
theorem split_of_solid {separator : Char} {xs : List Char}
    (h : b.Solid (· == separator) 0 xs) : b.split separator xs = [trim xs] := by
  have hsplit : b.splitFrom separator 0 (xs ++ []) = _ := splitFrom_append h []
  rw [List.append_nil, splitFrom, foldr_pushFirst_cons, List.append_nil] at hsplit
  rw [split, hsplit, List.map_singleton]

theorem splitFrom_ne_nil (separator : Char) (depth : Int) (cs : List Char) :
    b.splitFrom separator depth cs ≠ [] := by
  have hpush : ∀ (c : Char) parts, pushFirst c parts ≠ [] := by
    intro c parts
    cases parts <;> exact List.cons_ne_nil _ _
  cases cs with
  | nil => exact List.cons_ne_nil _ _
  | cons c cs =>
      rw [splitFrom]
      split_ifs
      · exact hpush _ _
      · exact hpush _ _
      · exact List.cons_ne_nil _ _
      · exact hpush _ _

theorem pushFirst_append {parts : List (List Char)} (h : parts ≠ []) (c : Char)
    (others : List (List Char)) : pushFirst c (parts ++ others) = pushFirst c parts ++ others := by
  cases parts with
  | nil => exact absurd rfl h
  | cons part rest => rfl

/-- Cutting loses only the separators. -/
theorem intercalate_splitFrom (separator : Char) (depth : Int) (cs : List Char) :
    [separator].intercalate (b.splitFrom separator depth cs) = cs := by
  have hpush : ∀ (c : Char) parts, parts ≠ [] →
      [separator].intercalate (pushFirst c parts) = c :: [separator].intercalate parts := by
    intro c parts hne
    rcases parts with _ | ⟨part, _ | ⟨next, rest⟩⟩
    · exact absurd rfl hne
    · rfl
    · rw [pushFirst, List.intercalate_cons_cons, List.intercalate_cons_cons]
      rfl
  induction cs generalizing depth with
  | nil => rfl
  | cons c cs ih =>
      rw [splitFrom]
      split_ifs with hopens hcloses hcut
      · rw [hpush c _ (splitFrom_ne_nil _ _ _), ih]
      · rw [hpush c _ (splitFrom_ne_nil _ _ _), ih]
      · obtain ⟨part, rest, hparts⟩ :=
          List.exists_cons_of_ne_nil (splitFrom_ne_nil (b := b) separator 0 cs)
        have hrest := ih 0
        rw [hparts] at hrest ⊢
        rw [List.intercalate_cons_cons, hrest, hcut.1]
        rfl
      · rw [hpush c _ (splitFrom_ne_nil _ _ _), ih]

/-- A separator behind a balanced text parts what precedes it from what follows. -/
theorem splitFrom_append_separator {separator : Char} {inner : Nat} {xs : List Char}
    (h : b.Closing inner xs) (hopens : b.opens separator = false)
    (hcloses : b.closes separator = false) (ys : List Char) :
    b.splitFrom separator inner (xs ++ separator :: ys) =
      b.splitFrom separator inner xs ++ b.splitFrom separator 0 ys := by
  have hpush : ∀ (c : Char) (depth : Nat) (cs : List Char),
      b.splitFrom separator depth (cs ++ separator :: ys) =
        b.splitFrom separator depth cs ++ b.splitFrom separator 0 ys →
      pushFirst c (b.splitFrom separator depth (cs ++ separator :: ys)) =
        pushFirst c (b.splitFrom separator depth cs) ++ b.splitFrom separator 0 ys := by
    intro c depth cs ih
    rw [ih, pushFirst_append (splitFrom_ne_nil separator depth cs)]
  induction h with
  | nil => exact splitFrom_separator hopens hcloses ys
  | opener hopener _ ih =>
      rw [List.cons_append, splitFrom_opener hopener, splitFrom_opener hopener]
      exact hpush _ _ _ ih
  | closer hopener hcloser _ ih =>
      rw [List.cons_append, splitFrom_closer hopener hcloser, splitFrom_closer hopener hcloser]
      exact hpush _ _ _ ih
  | @other depth c cs hopener hcloser _ _ ih =>
      rw [List.cons_append]
      by_cases hcut : c = separator ∧ depth = 0
      · obtain ⟨rfl, rfl⟩ := hcut
        have hcs := splitFrom_separator hopener hcloser cs
        have hall := splitFrom_separator hopener hcloser (cs ++ c :: ys)
        exact hall.trans ((congrArg ([] :: ·) ih).trans (congrArg (· ++ _) hcs.symm))
      · have hdepth : c = separator → (depth : Int) ≠ 0 := by
          intro hc hzero
          exact hcut ⟨hc, by omega⟩
        rw [splitFrom_other hopener hcloser hdepth, splitFrom_other hopener hcloser hdepth]
        exact hpush _ _ _ ih

theorem split_append_separator {separator : Char} {xs : List Char} (h : b.Closing 0 xs)
    (hopens : b.opens separator = false) (hcloses : b.closes separator = false)
    (ys : List Char) :
    b.split separator (xs ++ separator :: ys) = b.split separator xs ++ b.split separator ys := by
  have hsplit : b.splitFrom separator 0 (xs ++ separator :: ys) = _ :=
    splitFrom_append_separator h hopens hcloses ys
  rw [split, hsplit, List.map_append]
  rfl

/-- A separator behind a solid text ends the first part. -/
theorem split_append_cons {separator : Char} {xs : List Char}
    (h : b.Solid (· == separator) 0 xs) (hopens : b.opens separator = false)
    (hcloses : b.closes separator = false) (ys : List Char) :
    b.split separator (xs ++ separator :: ys) = trim xs :: b.split separator ys := by
  rw [split_append_separator h.closing hopens hcloses, split_of_solid h, List.singleton_append]

/-! White space around a text goes into its first and its last part, from which it is trimmed. -/

section Blanks

variable {separator c : Char} (hblank : isBlank c = true) (hplain : b.IsPlain (· == separator) c)

include hplain

theorem splitFrom_plain_cons (depth : Int) (cs : List Char) :
    b.splitFrom separator depth (c :: cs) = pushFirst c (b.splitFrom separator depth cs) := by
  refine splitFrom_other hplain.opens hplain.closes ?_ cs
  rintro rfl
  simpa using hplain.cuts

/-- A plain character at the end belongs to the last part. -/
theorem splitFrom_append_plain (depth : Int) (cs : List Char) :
    ∃ front last, b.splitFrom separator depth cs = front ++ [last] ∧
      b.splitFrom separator depth (cs ++ [c]) = front ++ [last ++ [c]] := by
  have hpush : ∀ (d : Char) {depth : Int} {xs ys : List Char},
      (∃ front last, b.splitFrom separator depth xs = front ++ [last] ∧
        b.splitFrom separator depth ys = front ++ [last ++ [c]]) →
      ∃ front last, pushFirst d (b.splitFrom separator depth xs) = front ++ [last] ∧
        pushFirst d (b.splitFrom separator depth ys) = front ++ [last ++ [c]] := by
    rintro d depth xs ys ⟨front, last, hxs, hys⟩
    rw [hxs, hys]
    cases front with
    | nil => exact ⟨[], d :: last, rfl, rfl⟩
    | cons first front => exact ⟨(d :: first) :: front, last, rfl, rfl⟩
  induction cs generalizing depth with
  | nil => exact ⟨[], [], rfl, splitFrom_plain_cons hplain depth []⟩
  | cons d cs ih =>
      rw [List.cons_append, splitFrom, splitFrom]
      split_ifs
      · exact hpush d (ih _)
      · exact hpush d (ih _)
      · obtain ⟨front, last, hcs, hconcat⟩ := ih 0
        exact ⟨[] :: front, last, by rw [hcs, List.cons_append], by rw [hconcat, List.cons_append]⟩
      · exact hpush d (ih _)

include hblank

theorem split_blank_cons (cs : List Char) :
    b.split separator (c :: cs) = b.split separator cs := by
  rw [split, splitFrom_plain_cons hplain, split]
  cases hparts : b.splitFrom separator 0 cs with
  | nil => exact absurd hparts (splitFrom_ne_nil separator 0 cs)
  | cons part rest =>
      have hbefore : allBlank [c] = true := by simp [allBlank, hblank]
      have hafter : allBlank [] = true := rfl
      have htrim : trim (c :: part) = trim part := by
        simpa using trim_between hbefore hafter part
      rw [pushFirst, List.map_cons, List.map_cons, htrim]

theorem split_append_blank (cs : List Char) :
    b.split separator (cs ++ [c]) = b.split separator cs := by
  obtain ⟨front, last, hcs, hconcat⟩ := splitFrom_append_plain hplain 0 cs
  have hbefore : allBlank [] = true := rfl
  have hafter : allBlank [c] = true := by simp [allBlank, hblank]
  have htrim : trim (last ++ [c]) = trim last := by
    simpa using trim_between hbefore hafter last
  rw [split, hconcat, split, hcs, List.map_append, List.map_append, List.map_singleton,
    List.map_singleton, htrim]

end Blanks

/-- Cutting a text and cutting what trimming leaves of it give the same parts. -/
theorem split_trim {separator : Char}
    (hplain : ∀ c, isBlank c = true → b.IsPlain (· == separator) c) (cs : List Char) :
    b.split separator (trim cs) = b.split separator cs := by
  obtain ⟨before, after, hcs, hbefore, hafter⟩ := trim_spec cs
  have hstart : ∀ xs ys, (∀ c ∈ xs, isBlank c = true) →
      b.split separator (xs ++ ys) = b.split separator ys := by
    intro xs ys hxs
    induction xs with
    | nil => rfl
    | cons c xs ih =>
        obtain ⟨hc, hxs⟩ := List.forall_mem_cons.mp hxs
        rw [List.cons_append, split_blank_cons hc (hplain c hc), ih hxs]
  have hend : ∀ ys xs, (∀ c ∈ ys, isBlank c = true) →
      b.split separator (xs ++ ys) = b.split separator xs := by
    intro ys xs hys
    induction ys generalizing xs with
    | nil => rw [List.append_nil]
    | cons c ys ih =>
        obtain ⟨hc, hys⟩ := List.forall_mem_cons.mp hys
        rw [List.append_cons, ih _ hys, split_append_blank hc (hplain c hc)]
  conv => rhs; rw [hcs, hstart _ _ hbefore, hend _ _ hafter]

/-- Cutting texts that were put together with separators gives back each of them. -/
theorem split_intercalate {separator : Char} (hopens : b.opens separator = false)
    (hcloses : b.closes separator = false) {texts : List (List Char)} (hne : texts ≠ [])
    (h : ∀ text ∈ texts, b.Solid (· == separator) 0 text) :
    b.split separator ([separator].intercalate texts) = texts.map trim := by
  induction texts with
  | nil => exact absurd rfl hne
  | cons text rest ih =>
      obtain ⟨htext, hrest⟩ := List.forall_mem_cons.mp h
      cases rest with
      | nil => rw [List.intercalate_singleton, split_of_solid htext, List.map_singleton]
      | cons next rest =>
          rw [List.intercalate_cons_cons, List.append_assoc, List.singleton_append,
            split_append_cons htext hopens hcloses, ih (List.cons_ne_nil _ _) hrest]
          rfl

theorem closing_intercalate {separator : Char} (hopens : b.opens separator = false)
    (hcloses : b.closes separator = false) {texts : List (List Char)}
    (h : ∀ text ∈ texts, b.Closing 0 text) : b.Closing 0 ([separator].intercalate texts) := by
  induction texts with
  | nil => exact .nil
  | cons text rest ih =>
      obtain ⟨htext, hrest⟩ := List.forall_mem_cons.mp h
      cases rest with
      | nil => rwa [List.intercalate_singleton]
      | cons next rest =>
          rw [List.intercalate_cons_cons, List.append_assoc, List.singleton_append]
          exact htext.append (.other hopens hcloses nofun (ih hrest))

/-- The parts of a balanced text are solid. -/
theorem Solid.parts {separator : Char} {depth : Nat} {cs : List Char} (h : b.Closing depth cs) :
    ∃ first rest, b.splitFrom separator depth cs = first :: rest ∧
      b.Solid (· == separator) depth first ∧ ∀ part ∈ rest, b.Solid (· == separator) 0 part := by
  induction h with
  | nil => exact ⟨[], [], rfl, .nil, List.forall_mem_nil _⟩
  | opener hopens _ ih =>
      obtain ⟨first, rest, hsplit, hfirst, hrest⟩ := ih
      refine ⟨_ :: first, rest, ?_, .opener hopens hfirst, hrest⟩
      rw [splitFrom_opener hopens]
      exact congrArg (pushFirst _) hsplit
  | closer hopens hcloses _ ih =>
      obtain ⟨first, rest, hsplit, hfirst, hrest⟩ := ih
      refine ⟨_ :: first, rest, ?_, .closer hopens hcloses hfirst, hrest⟩
      rw [splitFrom_closer hopens hcloses]
      exact congrArg (pushFirst _) hsplit
  | @other depth c cs hopens hcloses _ _ ih =>
      obtain ⟨first, rest, hsplit, hfirst, hrest⟩ := ih
      by_cases hcut : c = separator ∧ depth = 0
      · -- The text is cut here: an empty part, and then the parts of what follows.
        obtain ⟨rfl, rfl⟩ := hcut
        refine ⟨[], first :: rest, ?_, .nil, List.forall_mem_cons.mpr ⟨hfirst, hrest⟩⟩
        exact (splitFrom_separator hopens hcloses cs).trans (congrArg ([] :: ·) hsplit)
      · have hdepth : c = separator → 0 < depth := fun hc =>
          Nat.pos_of_ne_zero fun hzero => hcut ⟨hc, hzero⟩
        refine ⟨c :: first, rest, ?_, ?_, hrest⟩
        · rw [splitFrom_other hopens hcloses fun hc => by have := hdepth hc; omega]
          exact congrArg (pushFirst c) hsplit
        · exact .other hopens hcloses (fun hc => hdepth (beq_iff_eq.mp hc)) hfirst

end Brackets

end Precis.Text
