import Precis.Proofs.Imports.UseTrees
import Precis.Proofs.Text.Cutting
import Precis.Proofs.Types.Brackets

/-! # Flattening use trees

A tidied use tree is read by its first brace and its last, by the commas outside braces, by its last
separator and by the first `as`. None of these can be mistaken for another: segments contain no
signs, and the only spaces left are those around `as` and at the ends of the entries of a group. -/

namespace Precis.Rust.Use

open Text Brackets

/-! ## Segments and paths -/

/-- A character that neither white space nor braces nor commas are mistaken for. -/
structure IsQuiet (c : Char) : Prop where
  notBlank : isBlank c = false
  plain : ofGroups.IsPlain (· == ',') c

theorem IsQuiet.ne_space {c : Char} (h : IsQuiet c) : c ≠ ' ' := by
  rintro rfl
  exact absurd h.notBlank (by decide)

theorem IsQuiet.ne_brace {c : Char} (h : IsQuiet c) : c ≠ '\x7b' := by
  rintro rfl
  exact absurd h.plain.opens (by decide)

theorem Segment.isQuiet (s : Segment) : ∀ c ∈ s.text, IsQuiet c := by
  intro c hc
  obtain ⟨hblank, hsign⟩ := s.chars c hc
  simp only [isSign, Bool.or_eq_false_iff] at hsign
  exact ⟨hblank, hsign.1.2, hsign.2, hsign.1.1.2⟩

theorem isQuiet_pathText (segments : List Segment) : ∀ c ∈ pathText segments, IsQuiet c := by
  intro c hc
  obtain ⟨s, -, hc⟩ := List.mem_flatMap.mp hc
  rcases List.mem_append.mp hc with hc | hc
  · exact s.isQuiet c hc
  · obtain rfl : c = ':' := by simpa [separator] using hc
    exact ⟨by decide, by decide, by decide, by decide⟩

theorem Segment.tight (s : Segment) : Tight s.text := by
  constructor
  · obtain ⟨c, rest, hs⟩ := List.exists_cons_of_ne_nil s.nonempty
    exact ⟨c, rest, hs, (s.isQuiet c (by simp [hs])).notBlank⟩
  · obtain ⟨front, c, hs⟩ := (List.eq_nil_or_concat' s.text).resolve_left s.nonempty
    exact ⟨front, c, hs, (s.isQuiet c (by simp [hs])).notBlank⟩

theorem pathText_append (xs ys : List Segment) : pathText (xs ++ ys) = pathText xs ++ pathText ys :=
  List.flatMap_append

/-- A path to a segment, with separators between the segments only. -/
theorem pathText_append_text (above : List Segment) (last : Segment) :
    pathText above ++ last.text = separator.intercalate ((above ++ [last]).map Segment.text) := by
  induction above with
  | nil => simp [pathText]
  | cons s above ih =>
      rw [List.cons_append, List.map_cons, List.intercalate_cons_of_ne_nil (by simp), ← ih]
      simp [pathText]

theorem joined_concat (above : List Segment) (last : Segment) :
    joined (above ++ [last]) = String.ofList (pathText above ++ last.text) := by
  rw [joined, pathText_append_text]

/-- A text without white space in front of a tight one. -/
theorem tight_append {xs ys : List Char} (hxs : ∀ c ∈ xs, IsQuiet c) (hys : Tight ys) :
    Tight (xs ++ ys) := by
  obtain ⟨rest, c, hlast, hc⟩ := hys.last
  refine ⟨?_, ⟨xs ++ rest, c, by simp [hlast], hc⟩⟩
  cases xs with
  | nil => exact hys.first
  | cons d ds => exact ⟨d, ds ++ ys, rfl, (hxs d List.mem_cons_self).notBlank⟩

/-! ## Names -/

theorem not_mem_of_isQuiet {cs : List Char} (h : ∀ c ∈ cs, IsQuiet c) : ' ' ∉ cs :=
  fun hspace => (h _ hspace).ne_space rfl

theorem splitFirst?_aliasWord_none {cs : List Char} (h : ∀ c ∈ cs, IsQuiet c) :
    splitFirst? aliasWord cs = none :=
  splitFirst?_eq_none (not_mem_of_isQuiet h)

theorem splitFirst?_aliasWord {cs : List Char} (h : ∀ c ∈ cs, IsQuiet c) (r : Rename) :
    splitFirst? aliasWord (cs ++ r.tidied) = some (cs, r.localName.text) :=
  splitFirst?_append (not_mem_of_isQuiet h) _

theorem isQuiet_leaf (path : List Segment) (last : Segment) :
    ∀ c ∈ pathText path ++ last.text, IsQuiet c := by
  intro c hc
  exact (List.mem_append.mp hc).elim (isQuiet_pathText path c) (last.isQuiet c)

/-- A leaf is named by the path above it and its own. -/
theorem useName_leaf (above path : List Segment) (last : Segment) (rename : Option Rename) :
    useName (pathText above)
        (pathText path ++ (last.text ++ (rename.map Rename.tidied).getD [])) =
      Leaf.symbol ⟨above ++ (path ++ [last]), rename.map Rename.localName⟩ := by
  have htrim : trim (pathText path ++ last.text) = pathText path ++ last.text :=
    (tight_append (isQuiet_pathText path) last.tight).trim_eq
  have hjoined : String.ofList (pathText above ++ (pathText path ++ last.text)) =
      joined (above ++ (path ++ [last])) := by
    rw [← List.append_assoc above, joined_concat, pathText_append, List.append_assoc]
  cases rename with
  | none =>
      rw [Option.map_none, Option.getD_none, List.append_nil, useName,
        splitFirst?_aliasWord_none (isQuiet_leaf path last)]
      simp only [htrim, hjoined]
      rfl
  | some r =>
      rw [Option.map_some, Option.getD_some, ← List.append_assoc, useName,
        splitFirst?_aliasWord (isQuiet_leaf path last)]
      simp only [htrim, hjoined, r.localName.tight.trim_eq]
      rfl

/-! ## Groups -/

theorem group?_eq_none {cs : List Char} (h : '\x7b' ∉ cs) : group? cs = none := by
  have hdrop : cs.dropWhile (· != '\x7b') = [] := by
    rw [List.dropWhile_eq_nil_iff]
    intro c hc
    rw [bne_iff_ne]
    rintro rfl
    exact h hc
  rw [group?]
  simp only [hdrop]

theorem group?_path (segments : List Segment) (inside : List Char) :
    group? (pathText segments ++ ('\x7b' :: (inside ++ ['\x7d']))) =
      some (pathText segments, inside) := by
  have hpath : ∀ c ∈ pathText segments, (c != '\x7b') = true :=
    fun c hc => bne_iff_ne.mpr (isQuiet_pathText segments c hc).ne_brace
  have hends : (pathText segments).isEmpty || endsWith separator (pathText segments) := by
    rcases List.eq_nil_or_concat' segments with rfl | ⟨front, s, rfl⟩
    · rfl
    · rw [pathText_append, endsWith, dropSuffix?_eq_some_iff.mpr
        (by simp [pathText] : pathText front ++ pathText [s] =
          (pathText front ++ s.text) ++ separator)]
      simp
  have hbrace : endsWith ['\x7d'] (pathText segments ++ ('\x7b' :: (inside ++ ['\x7d']))) := by
    rw [endsWith, dropSuffix?_eq_some_iff.mpr
      (by simp : _ = (pathText segments ++ '\x7b' :: inside) ++ ['\x7d'])]
    rfl
  rw [group?]
  simp [List.takeWhile_append_of_pos hpath, List.dropWhile_append_of_pos hpath, hends, hbrace]

/-! ## Entries -/

theorem forall_mem_squash {P : Char → Prop} (h : P ' ') (gap : List Char) :
    ∀ c ∈ squash gap, P c := by
  rcases squash_cases gap with hgap | hgap
  · rw [hgap]
    exact List.forall_mem_nil P
  · rw [hgap]
    exact List.forall_mem_singleton.mpr h

theorem allBlank_squash (gap : List Char) : allBlank (squash gap) = true :=
  List.all_eq_true.mpr (forall_mem_squash (by decide) gap)

theorem solid_squash (gap : List Char) : ofGroups.Solid (· == ',') 0 (squash gap) :=
  solid_of_plain (forall_mem_squash ⟨by decide, by decide, by decide⟩ gap)

theorem solid_between {xs : List Char} (h : ofGroups.Solid (· == ',') 0 xs)
    (before after : List Char) :
    ofGroups.Solid (· == ',') 0 (squash before ++ (xs ++ squash after)) :=
  (solid_squash before).append (h.append (solid_squash after))

theorem Rename.isPlain_tidied (r : Rename) :
    ∀ c ∈ r.tidied, ofGroups.IsPlain (· == ',') c := by
  intro c hc
  rcases List.mem_append.mp hc with hc | hc
  · simp only [aliasWord, List.mem_cons, List.not_mem_nil, or_false] at hc
    rcases hc with rfl | rfl | rfl | rfl <;> exact ⟨by decide, by decide, by decide⟩
  · exact (r.localName.isQuiet c hc).plain

mutual

/-- No comma of a tree stands outside its braces. -/
theorem Tree.solid : ∀ tree : Tree, ofGroups.Solid (· == ',') 0 tree.tidied
  | .name path last none => by
      rw [Tree.tidied, Option.map_none, Option.getD_none, List.append_nil]
      exact solid_of_plain fun c hc => (isQuiet_leaf _ _ c hc).plain
  | .name path last (some r) => by
      rw [Tree.tidied, Option.map_some, Option.getD_some, ← List.append_assoc,
        solid_plain_append_iff fun c hc => (isQuiet_leaf _ _ c hc).plain]
      exact solid_of_plain r.isPlain_tidied
  | .glob path => solid_of_plain fun c hc => (isQuiet_leaf _ .star c hc).plain
  | .group path body => by
      have hclose : ofGroups.Solid (· == ',') 1 ['\x7d'] :=
        .closer (by decide) (by decide) .nil
      rw [Tree.tidied, solid_plain_append_iff fun c hc => (isQuiet_pathText _ c hc).plain]
      exact .opener (by decide) (Solid.inside body.closing hclose)

theorem Body.closing : ∀ body : Body, ofGroups.Closing 0 body.tidied
  | .blank gap => (solid_squash gap.text).closing
  | .last before tree after => (solid_between tree.solid before.text after.text).closing
  | .more before tree after rest => by
      have hrest : ofGroups.Closing 0 (',' :: rest.tidied) :=
        .other (by decide) (by decide) nofun rest.closing
      have hall := (solid_between tree.solid before.text after.text).closing.append hrest
      simpa [Body.tidied] using hall

end

theorem Tree.tight (tree : Tree) : Tight tree.tidied := by
  cases tree with
  | name path last rename =>
      refine tight_append (isQuiet_pathText _) ?_
      cases rename with
      | none => simpa using last.tight
      | some r =>
          obtain ⟨rest, c, hlast, hc⟩ := r.localName.tight.last
          have htight := last.tight.append (aliasWord ++ rest) hc
          simpa [Rename.tidied, hlast] using htight
  | glob path => exact tight_append (isQuiet_pathText _) Segment.star.tight
  | group path body =>
      have hbraces : Tight ('\x7b' :: (body.tidied ++ ['\x7d'])) :=
        ⟨⟨_, _, rfl, by decide⟩, ⟨'\x7b' :: body.tidied, _, rfl, by decide⟩⟩
      exact tight_append (isQuiet_pathText _) hbraces

/-- White space is no entry. -/
theorem entries_blank (gap : List Char) : entries (squash gap) = [] := by
  rw [entries, split_of_solid (solid_squash gap), trim_eq_nil_iff.mpr (allBlank_squash gap)]
  rfl

theorem filter_nonempty_cons {entry : List Char} (h : entry ≠ []) (others : List (List Char)) :
    (entry :: others).filter (fun entry => !entry.isEmpty) =
      entry :: others.filter fun entry => !entry.isEmpty :=
  List.filter_cons_of_pos (by simpa using h)

/-- An entry is a tree without the white space around it. -/
theorem Tree.entries_last (tree : Tree) (before after : List Char) :
    entries (squash before ++ (tree.tidied ++ squash after)) = [tree.tidied] := by
  rw [entries, split_of_solid (solid_between tree.solid before after),
    trim_between (allBlank_squash _) (allBlank_squash _), tree.tight.trim_eq,
    filter_nonempty_cons tree.tight.ne_nil]
  rfl

theorem Tree.entries_more (tree : Tree) (before after rest : List Char) :
    entries (squash before ++ (tree.tidied ++ (squash after ++ ',' :: rest))) =
      tree.tidied :: entries rest := by
  have hcut := split_append_cons (solid_between tree.solid before after) (by decide) (by decide) rest
  simp only [List.append_assoc] at hcut
  rw [entries, hcut, trim_between (allBlank_squash _) (allBlank_squash _), tree.tight.trim_eq,
    filter_nonempty_cons tree.tight.ne_nil]
  rfl

/-! ## The names of a group -/

theorem Tree.group?_name (path : List Step) (last : Segment) (rename : Option Rename) :
    group? (Tree.name path last rename).tidied = none := by
  refine group?_eq_none ?_
  intro hbrace
  rw [Tree.tidied, ← List.append_assoc, List.mem_append] at hbrace
  rcases hbrace with hbrace | hbrace
  · exact (isQuiet_leaf _ _ _ hbrace).ne_brace rfl
  · cases rename with
    | none => cases hbrace
    | some r => exact absurd (r.isPlain_tidied _ hbrace).opens (by decide)

theorem Leaf.below_below (above path : List Segment) (l : Leaf) :
    (l.below path).below above = l.below (above ++ path) := by
  simp [Leaf.below]

/-- The names that an entry of a group below the path `path` imports. -/
def entryNames (path entry : List Char) : List ImportedName :=
  match group? entry with
  | some (deeper, inner) => groupNames (path ++ deeper) inner
  | none => [useName path entry]

theorem groupNames_eq_flatMap (path inside : List Char) :
    groupNames path inside = (entries inside).flatMap (entryNames path) :=
  groupNames_eq path inside

theorem entryNames_name (above : List Segment) (path : List Step) (last : Segment)
    (rename : Option Rename) :
    entryNames (pathText above) (Tree.name path last rename).tidied =
      [Leaf.symbol ⟨above ++ (path.map Step.segment ++ [last]), rename.map Rename.localName⟩] := by
  rw [entryNames, Tree.group?_name]
  exact congrArg ([·]) (useName_leaf above _ last rename)

mutual

/-- An entry of a group imports its leaves, each below the path to the group. -/
theorem Tree.entryNames_eq : ∀ (tree : Tree) (above : List Segment),
    entryNames (pathText above) tree.tidied = tree.leaves.map fun l => (l.below above).symbol
  | .name path last rename, above => entryNames_name above path last rename
  | .glob path, above => entryNames_name above path .star none
  | .group path body, above => by
      rw [Tree.tidied, entryNames, group?_path]
      dsimp only
      rw [← pathText_append, body.groupNames_eq, Tree.leaves, List.map_map]
      simp only [Function.comp_def, Leaf.below_below]

theorem Body.groupNames_eq : ∀ (body : Body) (above : List Segment),
    groupNames (pathText above) body.tidied = body.leaves.map fun l => (l.below above).symbol
  | .blank gap, above => by
      rw [groupNames_eq_flatMap, Body.tidied, entries_blank]
      rfl
  | .last before tree after, above => by
      rw [groupNames_eq_flatMap, Body.tidied, tree.entries_last, List.flatMap_singleton,
        tree.entryNames_eq]
      rfl
  | .more before tree after rest, above => by
      rw [groupNames_eq_flatMap, Body.tidied, tree.entries_more, List.flatMap_cons,
        tree.entryNames_eq, ← groupNames_eq_flatMap, rest.groupNames_eq, Body.leaves,
        List.map_append]

end

/-! ## The tree as a whole -/

theorem dropSuffixes_pathText (segments : List Segment) :
    String.ofList (dropSuffixes separator (pathText segments)) = joined segments := by
  rcases List.eq_nil_or_concat' segments with rfl | ⟨front, s, rfl⟩
  · have hnil : dropSuffixes separator [] = [] := by
      rw [dropSuffixes, List.reverse_nil, dropPrefixes]
      rfl
    rw [joined, show pathText [] = [] from rfl, hnil]
    rfl
  · obtain ⟨rest, c, hlast, hc⟩ := s.tight.last
    have hcolon : ':' ≠ c := by
      rintro rfl
      exact (s.inWord ':' (by simp [hlast])).notColon rfl
    have hpath : pathText (front ++ [s]) = (pathText front ++ rest) ++ [c] ++ separator := by
      simp [pathText, hlast]
    have hdrop : dropSuffixes separator _ = _ :=
      @dropSuffixes_append ':' [':'] c hcolon (pathText front ++ rest)
    rw [joined_concat, hpath, hlast, ← List.append_assoc]
    exact congrArg String.ofList hdrop

theorem splitLast?_pathText (front : List Segment) (s : Segment) {last : List Char}
    (h : ':' ∉ last) :
    splitLast? separator (pathText (front ++ [s]) ++ last) =
      some (pathText front ++ s.text, last) := by
  have hpath : pathText (front ++ [s]) ++ last =
      (pathText front ++ s.text) ++ (separator ++ last) := by
    simp [pathText]
  rw [hpath]
  exact @splitLast?_append ':' [':'] _ last h

theorem not_mem_leaf (last : Segment) (rename : Option Rename) :
    ':' ∉ last.text ++ (rename.map Rename.tidied).getD [] := by
  intro hcolon
  rcases List.mem_append.mp hcolon with hcolon | hcolon
  · exact (last.inWord _ hcolon).notColon rfl
  · cases rename with
    | none => cases hcolon
    | some r =>
        rcases List.mem_append.mp hcolon with hcolon | hcolon
        · exact absurd hcolon (by decide)
        · exact (r.localName.inWord _ hcolon).notColon rfl

theorem joined_singleton (last : Segment) : joined [last] = String.ofList last.text :=
  joined_concat [] last

/-- The wildcard is the name that a star alone would have. -/
theorem wildcard_or_useName (last : List Char) :
    (if last = ['*'] then ImportedName.wildcard else useName [] last) = useName [] last := by
  split
  · rename_i hstar
    rw [hstar]
    decide
  · rfl

theorem useTree_group {cs : List Char} {path : List Step} {body : Body}
    (h : tidy cs = (Tree.group path body).tidied) :
    useTree cs = (joined (path.map Step.segment), body.leaves.map Leaf.symbol) := by
  have hnames : groupNames [] body.tidied = body.leaves.map Leaf.symbol := body.groupNames_eq []
  rw [useTree, h, Tree.tidied, group?_path]
  dsimp only
  rw [hnames, dropSuffixes_pathText]

theorem useTree_bare {cs : List Char} {last : Segment}
    (h : tidy cs = (Tree.name [] last none).tidied) : useTree cs = (joined [last], []) := by
  have htidied : (Tree.name [] last none).tidied = last.text := List.append_nil _
  have hlast : splitLast? separator last.text = none :=
    @splitLast?_eq_none ':' [':'] _ fun hcolon => (last.inWord _ hcolon).notColon rfl
  rw [useTree, h, Tree.group?_name, htidied]
  dsimp only
  rw [hlast, splitFirst?_aliasWord_none last.isQuiet, joined_singleton]

theorem useTree_renamed {cs : List Char} {last : Segment} {r : Rename}
    (h : tidy cs = (Tree.name [] last (some r)).tidied) :
    useTree cs = (joined [last], [Leaf.symbol ⟨[last], some r.localName⟩]) := by
  have htidied : (Tree.name [] last (some r)).tidied = last.text ++ r.tidied := rfl
  have hlast : splitLast? separator (last.text ++ r.tidied) = none :=
    @splitLast?_eq_none ':' [':'] _ (not_mem_leaf last (some r))
  have hname : useName [] (last.text ++ r.tidied) = _ := useName_leaf [] [] last (some r)
  rw [useTree, h, Tree.group?_name, htidied]
  dsimp only
  rw [hlast, splitFirst?_aliasWord last.isQuiet]
  dsimp only
  rw [hname, last.tight.trim_eq, joined_singleton]
  rfl

theorem useTree_path {cs : List Char} {path : List Step} {last : Segment}
    {rename : Option Rename} (h : tidy cs = (Tree.name path last rename).tidied)
    (hpath : path ≠ []) :
    useTree cs =
      (joined (path.map Step.segment), [Leaf.symbol ⟨[last], rename.map Rename.localName⟩]) := by
  obtain ⟨front, s, hconcat⟩ :=
    (List.eq_nil_or_concat' (path.map Step.segment)).resolve_left (by simpa using hpath)
  have hlast := splitLast?_pathText front s (not_mem_leaf last rename)
  have hname : useName [] (last.text ++ (rename.map Rename.tidied).getD []) = _ :=
    useName_leaf [] [] last rename
  rw [useTree, h, Tree.group?_name, Tree.tidied, hconcat]
  dsimp only
  rw [hlast]
  dsimp only
  rw [wildcard_or_useName, hname, joined_concat]
  rfl

/-- A use tree imports what it says, whatever white space stands in it and around it. -/
theorem useTree_text (tree : Tree) (before after : Gap) :
    useTree (before.text ++ (tree.text ++ after.text)) = tree.imports := by
  have htidy := tree.tidies.tidy_between before.blank after.blank
  match tree with
  | .group path body => exact useTree_group htidy
  | .glob [] => exact @useTree_bare _ .star htidy
  | .glob (s :: path) => exact @useTree_path _ _ .star none htidy (List.cons_ne_nil _ _)
  | .name [] last none => exact useTree_bare htidy
  | .name [] last (some r) => exact useTree_renamed htidy
  | .name (s :: path) last rename => exact useTree_path htidy (List.cons_ne_nil _ _)

/-- A word as a segment. -/
def Segment.ofWord (word : String)
    (h : word.toList ≠ [] ∧ word.toList.all (fun c => !isBlank c && !isSign c) = true) :
    Segment where
  text := word.toList
  nonempty := h.1
  chars c hc := by simpa using List.all_eq_true.mp h.2 c hc

/-- A group with a trailing comma in which a group is nested, with another name and a star in the
inner one, spelled as `std ::\t{io,  fmt::{ Write\n as  Sink , * }, }`. -/
def nestedTree : Tree :=
  let tight : Gap := ⟨[], by decide⟩
  let blank : Gap := ⟨[' '], by decide⟩
  let io := Segment.ofWord "io" (by decide)
  let write := Segment.ofWord "Write" (by decide)
  let sink : Rename :=
    { before := ⟨⟨['\n', ' '], by decide⟩, by decide⟩
      after := ⟨⟨[' ', ' '], by decide⟩, by decide⟩
      localName := .ofWord "Sink" (by decide) }
  let inner : Body := .more blank (.name [] write (some sink)) blank (.last blank (.glob []) blank)
  .group [⟨.ofWord "std" (by decide), blank, ⟨['\t'], by decide⟩⟩]
    (.more tight (.name [] io none) tight
      (.more ⟨[' ', ' '], by decide⟩
        (.group [⟨.ofWord "fmt" (by decide), tight, tight⟩] inner) tight
        (.blank blank)))

theorem useTree_text_nested :
    useTree "\nstd ::\t\x7bio,  fmt::\x7b Write\n as  Sink , * \x7d, \x7d ".toList =
      ("std", [{ name := "io" }, { name := "fmt::Write", localName := some "Sink" },
        { name := "fmt::*" }]) := by
  have htext : ['\n'] ++ (nestedTree.text ++ [' ']) =
      "\nstd ::\t\x7bio,  fmt::\x7b Write\n as  Sink , * \x7d, \x7d ".toList := by decide +kernel
  have himports : nestedTree.imports =
      ("std", [{ name := "io" }, { name := "fmt::Write", localName := some "Sink" },
        { name := "fmt::*" }]) := by decide +kernel
  rw [← htext, ← himports]
  exact useTree_text nestedTree ⟨['\n'], by decide⟩ ⟨[' '], by decide⟩

end Precis.Rust.Use
