import Precis.Proofs.Outlining.Safety

/-! # What condensed outlines hold

Problems stand at the top level of an outline, where no selection drops them. Doc comments are the
only comments that are attached to declarations, so that the switch for doc comments alone decides
about them. -/

namespace Precis

/-! ## Condensing -/

/-- A source with a parse tree is outlined and condensed; what comes out are the remnants of the
outline. -/
theorem condense_eq {r : Registry} {path : String} {g : Grammar} (settings : Settings)
    (bytes : List UInt8) (tree : ParseTree) (h : r.frontendFor? path = some (.parsing g)) :
    r.outlineOf path { bytes := bytes, tree := some tree } = .ok (g.outline path bytes tree) ∧
    condense r settings path { bytes := bytes, tree := some tree } =
      .ok { g.outline path bytes tree with
        children := settings.selection.remnants (g.outline path bytes tree).children } := by
  have houtline : r.outlineOf path { bytes := bytes, tree := some tree } =
      .ok (g.outline path bytes tree) := by
    simp [Registry.outlineOf, Registry.outline, h, Frontend.outline, Except.mapError]
  obtain ⟨o, ho⟩ := prune_outline settings.selection g path bytes tree
  have hprune := ho
  obtain ⟨-, rfl⟩ := Selection.prune_eq_ok_iff.mp ho
  refine ⟨houtline, ?_⟩
  rw [condense, houtline]
  simp [Selection.condense, hprune, bind, Except.bind, Except.mapError]

/-! ## Problems -/

namespace ParseTree

theorem anyFault_eq_any (ts : List ParseTree) : anyFault ts = ts.any hasFault := by
  induction ts with
  | nil => rfl
  | cons t ts ih => rw [anyFault, ih, List.any_cons]

theorem hasFault_eq (t : ParseTree) :
    t.hasFault = (t.missing || t.faulty || t.children.any hasFault) := by
  cases t
  rw [hasFault, anyFault_eq_any]

/-- A tree without a fault has nothing to report. -/
theorem reports_eq_nil (source : List Char) {t : ParseTree} (h : t.hasFault = false) :
    t.reports source = [] := by
  induction hsize : t.size using Nat.strongRecOn generalizing t with
  | ind n ih =>
      rw [hasFault_eq, Bool.or_eq_false_iff, Bool.or_eq_false_iff, List.any_eq_false] at h
      obtain ⟨⟨hmissing, hfaulty⟩, hbelow⟩ := h
      rw [reports_eq, hmissing, hfaulty, if_neg Bool.false_ne_true, if_neg Bool.false_ne_true,
        List.flatMap_eq_nil_iff]
      intro c hc
      exact ih c.size (hsize ▸ size_lt_of_mem hc) (by simpa using hbelow c hc) rfl

end ParseTree

/-- The gate before the reports of a tree never hides one. -/
theorem sourceProblems_eq (bytes : List UInt8) (tree : ParseTree) :
    sourceProblems bytes tree =
      (if Text.isUtf8 bytes then [] else [encodingWarning (tree.location (Text.decodeLossy bytes))])
        ++ tree.reports (Text.decodeLossy bytes) := by
  unfold sourceProblems
  dsimp only
  congr 1
  split_ifs with hfault
  · rfl
  · exact (ParseTree.reports_eq_nil _ (by simpa using hfault)).symm

/-- A label that reports no problem. -/
def Label.Unproblematic (l : Label) : Prop :=
  ∀ p, l ≠ .leaf (.problem p)

theorem Label.Regular.unproblematic {ok : Location → Prop} {l : Label} (h : l.Regular ok) :
    l.Unproblematic := by
  rintro p rfl
  exact h

theorem Label.Unproblematic.trimLabel {l : Label} (s : Selection) (h : l.Unproblematic) :
    (s.trimLabel l).Unproblematic := by
  rcases l with (_ | _ | _) | (_ | _ | _ | _ | _ | p)
  case leaf.problem => exact absurd rfl (h p)
  all_goals exact fun _ => nofun

/-- The problems of an outline whose own nodes report none are those put behind them. -/
theorem problems_of_unproblematic {o : Outline} {nodes : List Node} {problems : List Problem}
    (hchildren : o.children = nodes ++ problems.map fun p => .leaf (.problem p))
    (h : Node.Everywhere Label.Unproblematic nodes) : o.problems = problems := by
  have hnodes : (Node.preorderAll nodes).filterMap Node.problem? = [] := by
    rw [List.filterMap_eq_nil_iff]
    intro node hnode
    have hlabel := h node hnode
    rcases node with _ | (_ | _ | _ | _ | _ | p)
    case leaf.problem => exact absurd rfl (hlabel p)
    all_goals rfl
  rw [Outline.problems, Outline.walk, Node.walk_eq_preorderAll, hchildren,
    Node.preorderAll_append, List.filterMap_append, hnodes, List.nil_append]
  induction problems generalizing o with
  | nil => rfl
  | cons p rest ih =>
      have hrest := @ih { o with children := nodes ++ rest.map fun p => .leaf (.problem p) } rfl
      simpa [Node.preorderAll, Node.preorder, Node.problem?] using hrest

theorem remnants_problems (s : Selection) (problems : List Problem) :
    s.remnants (problems.map fun p => .leaf (.problem p)) =
      problems.map fun p => .leaf (.problem p) := by
  induction problems with
  | nil => rfl
  | cons p rest ih =>
      rw [List.map_cons, Selection.remnants, ih]
      rfl

/-- No selection hides a problem: a condensed outline reports what the outline reports, which is
that the bytes are no UTF-8, if so, and then the faults of the parse tree. -/
theorem condense_problems {r : Registry} {path : String} {g : Grammar} (settings : Settings)
    (bytes : List UInt8) (tree : ParseTree) (h : r.frontendFor? path = some (.parsing g)) :
    ∃ outlined condensed,
      r.outlineOf path { bytes := bytes, tree := some tree } = .ok outlined ∧
      condense r settings path { bytes := bytes, tree := some tree } = .ok condensed ∧
      condensed.problems = outlined.problems ∧
      outlined.problems =
        (if Text.isUtf8 bytes then []
          else [encodingWarning (tree.location (Text.decodeLossy bytes))]) ++
        tree.reports (Text.decodeLossy bytes) := by
  obtain ⟨houtline, hcondense⟩ := condense_eq settings bytes tree h
  have hregular : Node.Regular (fun _ => True) (g.nodes (Text.decodeLossy bytes) tree) :=
    nodes_regular g (tree.placed_of_forall (fun _ => trivial) _)
  have hown := hregular.imp fun l hl => Label.Regular.unproblematic hl
  have hleft : Node.Everywhere Label.Unproblematic
      (settings.selection.remnants (g.nodes (Text.decodeLossy bytes) tree)) :=
    everywhere_remnants hown fun l hl _ => hl.trimLabel settings.selection
  have houtlined : (g.outline path bytes tree).problems = sourceProblems bytes tree :=
    problems_of_unproblematic rfl hown
  refine ⟨_, _, houtline, hcondense, ?_, ?_⟩
  · rw [houtlined]
    refine problems_of_unproblematic ?_ hleft
    dsimp only [Grammar.outline]
    rw [Selection.remnants_append, remnants_problems]
  · rw [houtlined, sourceProblems_eq]

/-! ## A specimen -/

/-- The bytes of a documented enum and a remark, and a last byte that is no UTF-8. -/
def hueBytes : List UInt8 :=
  Text.encode "/** Hues. */\nenum Hue \x7b\x7d\n// end\n".toList ++ [0xFF]

/-- The parse tree of the text of these bytes; the replaced byte is faulty. -/
def hueTree : ParseTree :=
  ⟨"program", "", true, false, false, 0, 35,
    [⟨"block_comment", "", true, false, false, 0, 12, []⟩,
     ⟨"enum_declaration", "", true, false, false, 13, 24,
      [⟨"enum", "", false, false, false, 13, 17, []⟩,
       ⟨"identifier", "name", true, false, false, 18, 21, []⟩,
       ⟨"enum_body", "body", true, false, false, 22, 24,
        [⟨"\x7b", "", false, false, false, 22, 23, []⟩,
         ⟨"\x7d", "", false, false, false, 23, 24, []⟩]⟩]⟩,
     ⟨"line_comment", "", true, false, false, 25, 31, []⟩,
     ⟨"ERROR", "", true, false, true, 32, 35, []⟩]⟩

/-- Settings that keep package-private declarations and nothing else that can be left out. -/
def hueSettings : Settings where
  selection :=
    { internalItems := true, docs := false, imports := false, fields := false, functions := false,
      decorators := false }

theorem condense_problems_hue :
    Registry.standard.frontendFor? "Hue.java" = some (.parsing .java) ∧
    ∃ outlined condensed,
      Registry.standard.outlineOf "Hue.java" { bytes := hueBytes, tree := some hueTree } =
        .ok outlined ∧
      condense .standard hueSettings "Hue.java" { bytes := hueBytes, tree := some hueTree } =
        .ok condensed ∧
      condensed.problems = outlined.problems ∧
      outlined.problems.map Problem.code = [some "encoding", some "syntax"] := by
  have hfrontend : Registry.standard.frontendFor? "Hue.java" = some (.parsing .java) := by
    decide +kernel
  obtain ⟨outlined, condensed, houtline, hcondense, hsame, hproblems⟩ :=
    condense_problems hueSettings hueBytes hueTree hfrontend
  refine ⟨hfrontend, outlined, condensed, houtline, hcondense, hsame, ?_⟩
  rw [hproblems]
  decide +kernel

/-! ## Comments -/

/-- A declaration without documentation, and no doc comment either. -/
def Label.Undocumented (l : Label) : Prop :=
  l.doc? = none ∧ ∀ c, l = .leaf (.comment c) → c.format ≠ .doc

/-- No comment other than a doc comment. -/
def Label.Unremarked (l : Label) : Prop :=
  ∀ c, l = .leaf (.comment c) → c.format ≠ .line ∧ c.format ≠ .block

/-- What a grammar attaches to a declaration is documentation. -/
theorem Label.Regular.isDocumentation {ok : Location → Prop} :
    ∀ {l : Label}, l.Regular ok → IsDocumentation l.doc?
  | .head (.type _), h => h.2
  | .leaf (.function _), h => h.2
  | .leaf (.field _), h => h.2.1
  | .leaf (.typeAlias _), h => h.2
  | .head (.package _), _ | .leaf (.imported _), _ | .leaf (.comment _), _ => isDocumentation_none

namespace Selection

/-- Without doc comments nothing that is left is documented, whatever becomes of other comments. -/
theorem trimLabel_undocumented {s : Selection} {l : Label} (hdocs : s.docs = false)
    (hdoc : IsDocumentation l.doc?) (hkeep : s.keepsLabel l = true) :
    (s.trimLabel l).Undocumented := by
  refine ⟨?_, ?_⟩
  · rw [(trimmed_trimLabel s l).doc, Option.filter_eq_none_iff]
    intro c hc
    simp [hdoc c hc, hdocs]
  · intro c hc hformat
    rcases l with (_ | _ | _) | (_ | _ | _ | _ | found | _) <;>
      simp only [trimLabel, trimLeaf, reduceCtorEq, Label.leaf.injEq, Leaf.comment.injEq] at hc
    subst hc
    simp [keepsLabel, keepsLeaf, keepsFormat, hformat, hdocs] at hkeep

theorem trimLabel_unremarked {s : Selection} {l : Label} (hcomments : s.comments = false)
    (hkeep : s.keepsLabel l = true) : (s.trimLabel l).Unremarked := by
  intro c hc
  rcases l with (_ | _ | _) | (_ | _ | _ | _ | found | _) <;>
    simp only [trimLabel, trimLeaf, reduceCtorEq, Label.leaf.injEq, Leaf.comment.injEq] at hc
  subst hc
  constructor <;> intro hformat <;>
    simp [keepsLabel, keepsLeaf, keepsFormat, hformat, hcomments] at hkeep

end Selection

/-- What the nodes of an outline have attached is documentation. -/
theorem outline_isDocumentation (g : Grammar) (path : String) (bytes : List UInt8)
    (tree : ParseTree) :
    Node.Everywhere (fun l => IsDocumentation l.doc?) (g.outline path bytes tree).children := by
  refine Node.everywhere_append.mpr ⟨?_, ?_⟩
  · have hregular : Node.Regular (fun _ => True) (g.nodes (Text.decodeLossy bytes) tree) :=
      nodes_regular g (tree.placed_of_forall (fun _ => trivial) _)
    exact hregular.imp fun l hl => hl.isDocumentation
  · induction sourceProblems bytes tree with
    | nil => exact Node.everywhere_nil
    | cons p rest ih => exact Node.everywhere_leaf_cons.mpr ⟨isDocumentation_none, ih⟩

/-- The switches for comments hold at every depth of a condensed outline: without doc comments no
node is documented and no doc comment stands by itself, and without other comments none of them
does. -/
theorem condense_comments {r : Registry} {path : String} {g : Grammar} (settings : Settings)
    (bytes : List UInt8) (tree : ParseTree) (h : r.frontendFor? path = some (.parsing g)) :
    ∃ condensed, condense r settings path { bytes := bytes, tree := some tree } = .ok condensed ∧
      (settings.selection.docs = false → ∀ node ∈ condensed.walk,
        node.doc? = none ∧ ∀ c, node = .leaf (.comment c) → c.format ≠ .doc) ∧
      (settings.selection.comments = false → ∀ node ∈ condensed.walk,
        ∀ c, node = .leaf (.comment c) → c.format ≠ .line ∧ c.format ≠ .block) := by
  obtain ⟨-, hcondense⟩ := condense_eq settings bytes tree h
  have houtline := outline_isDocumentation g path bytes tree
  refine ⟨_, hcondense, ?_, ?_⟩
  · intro hdocs node hnode
    rw [Outline.walk, Node.walk_eq_preorderAll] at hnode
    have hleft := everywhere_remnants houtline fun l hl hkeep =>
      Selection.trimLabel_undocumented hdocs hl hkeep
    obtain ⟨hdoc, hcomment⟩ := hleft node hnode
    refine ⟨?_, ?_⟩
    · cases node <;> exact hdoc
    · rintro c rfl
      exact hcomment c rfl
  · intro hcomments node hnode
    rw [Outline.walk, Node.walk_eq_preorderAll] at hnode
    have hleft := everywhere_remnants houtline fun l _ hkeep =>
      Selection.trimLabel_unremarked hcomments hkeep
    rintro c rfl
    exact hleft _ hnode c rfl

theorem condense_comments_hue :
    Registry.standard.frontendFor? "Hue.java" = some (.parsing .java) ∧
    hueSettings.selection.docs = false ∧ hueSettings.selection.comments = false ∧
    ∃ condensed,
      condense .standard hueSettings "Hue.java" { bytes := hueBytes, tree := some hueTree } =
        .ok condensed ∧
      ∀ node ∈ condensed.walk, node.doc? = none ∧
        ∀ c, node = .leaf (.comment c) →
          c.format ≠ .doc ∧ c.format ≠ .line ∧ c.format ≠ .block := by
  have hfrontend : Registry.standard.frontendFor? "Hue.java" = some (.parsing .java) := by
    decide +kernel
  obtain ⟨condensed, hcondense, hdocs, hcomments⟩ :=
    condense_comments hueSettings hueBytes hueTree hfrontend
  refine ⟨hfrontend, rfl, rfl, condensed, hcondense, ?_⟩
  intro node hnode
  refine ⟨(hdocs rfl node hnode).1, ?_⟩
  intro c hc
  exact ⟨(hdocs rfl node hnode).2 c hc, hcomments rfl node hnode c hc⟩

end Precis
