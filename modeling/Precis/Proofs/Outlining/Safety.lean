import Precis.Audit
import Precis.Condense
import Precis.Proofs.Outlining.Java
import Precis.Proofs.Outlining.Python
import Precis.Proofs.Outlining.Rust
import Precis.Proofs.Pruning.Meet

/-! # Outlines are safe to prune

The outline of a source never breaks the rule for enum members, whatever its parse tree looks like:
pruning does not refuse it, and an audit finds nothing but missing names, as long as the ranges of
the parse tree are in order. -/

namespace Precis

/-! ## Reports of faults -/

namespace ParseTree

theorem reportsAll_eq_flatMap (source : List Char) (ts : List ParseTree) :
    reportsAll source ts = ts.flatMap (reports source) := by
  induction ts with
  | nil => rfl
  | cons t ts ih => rw [reportsAll, ih, List.flatMap_cons]

theorem reports_eq (source : List Char) (t : ParseTree) :
    t.reports source =
      if t.missing then t.missingReport source :: t.children.flatMap (reports source)
      else if t.faulty then [t.faultReport source]
      else t.children.flatMap (reports source) := by
  cases t
  rw [reports, reportsAll_eq_flatMap]

theorem reports_location {ok : Location → Prop} {source : List Char} {t : ParseTree}
    (ht : t.Placed ok source) : ∀ p ∈ t.reports source, ok p.location := by
  unfold Placed at ht
  induction ht with
  | @intro t here below ih =>
      have hbelow : ∀ p ∈ t.children.flatMap (reports source), ok p.location := by
        intro p hp
        obtain ⟨c, hc, hp⟩ := List.mem_flatMap.mp hp
        exact ih c hc p hp
      rw [reports_eq]
      split_ifs
      · exact List.forall_mem_cons.mpr ⟨here.1, hbelow⟩
      · exact List.forall_mem_singleton.mpr here.1
      · exact hbelow

end ParseTree

theorem sourceProblems_location {ok : Location → Prop} {bytes : List UInt8} {tree : ParseTree}
    (h : tree.Placed ok (Text.decodeLossy bytes)) :
    ∀ p ∈ sourceProblems bytes tree, ok p.location := by
  intro p hp
  unfold sourceProblems at hp
  dsimp only at hp
  rcases List.mem_append.mp hp with hp | hp
  · split_ifs at hp
    · cases hp
    · obtain rfl := List.mem_singleton.mp hp
      exact h.here.1
  · split_ifs at hp
    · exact ParseTree.reports_location h p hp
    · cases hp

/-! ## Labels of outlines -/

namespace Label

/-- Where a node with this label stands. -/
def location : Label → Location
  | .head branch => branch.location
  | .leaf item => item.location

/-- A label that breaks no rule by itself, names and locations apart: it is no file, and if it is
an enum member, then one that is public, static and constant. -/
def Lawful : Label → Prop
  | .head (.file _) => False
  | .leaf (.field item) => item.enumMember → item.isPublicConstant
  | _ => True

theorem Regular.location {ok : Location → Prop} :
    ∀ {l : Label}, l.Regular ok → ok l.location
  | .head (.package _), h => h
  | .head (.type _), h => h.1
  | .leaf (.imported _), h => h
  | .leaf (.function _), h => h.1
  | .leaf (.field _), h => h.1
  | .leaf (.typeAlias _), h => h.1
  | .leaf (.comment _), h => h

theorem Regular.lawful {ok : Location → Prop} : ∀ {l : Label}, l.Regular ok → l.Lawful
  | .leaf (.field _), h => h.2.2
  | .head (.package _), _ | .head (.type _), _ | .leaf (.imported _), _
  | .leaf (.function _), _ | .leaf (.typeAlias _), _ | .leaf (.comment _), _ => trivial

end Label

theorem nodes_regular {ok : Location → Prop} {text : List Char} {tree : ParseTree} (g : Grammar)
    (h : tree.Placed ok text) : Node.Regular ok (g.nodes text tree) := by
  cases g with
  | rust => exact Rust.outline_regular h
  | python => exact Python.outline_regular h
  | java => exact Java.outline_regular h

/-- All labels of an outline are lawful, and their locations are as good as those of the tree. -/
theorem outline_labels {ok : Location → Prop} {bytes : List UInt8} {tree : ParseTree}
    (g : Grammar) (path : String) (h : tree.Placed ok (Text.decodeLossy bytes)) :
    Node.Everywhere (fun l => l.Lawful ∧ ok l.location) (g.outline path bytes tree).children := by
  refine Node.everywhere_append.mpr ⟨?_, ?_⟩
  · exact (nodes_regular g h).imp fun l hl => ⟨hl.lawful, hl.location⟩
  · have hproblems := sourceProblems_location h
    generalize sourceProblems bytes tree = problems at hproblems
    induction problems with
    | nil => exact Node.everywhere_nil
    | cons p rest ih =>
        obtain ⟨hp, hrest⟩ := List.forall_mem_cons.mp hproblems
        exact Node.everywhere_leaf_cons.mpr ⟨⟨trivial, hp⟩, ih hrest⟩

/-! ## Pruning and audit of lawful labels -/

theorem isBadMember_of_lawful {node : Node} (h : node.label.Lawful) :
    node.isBadMember = false := by
  rcases node with _ | (_ | _ | item | _ | _ | _)
  case leaf.field =>
    cases hmember : item.enumMember with
    | false => simp [Node.isBadMember, hmember]
    | true => simp [Node.isBadMember, show item.isPublicConstant = true from h hmember]
  all_goals rfl

theorem breachesAll_eq_nil {nodes : List Node} (s : Selection)
    (h : Node.Everywhere Label.Lawful nodes) : s.breachesAll nodes = [] := by
  induction nodes using Node.rowInduction with
  | nil => rfl
  | leaf item rest ih => exact ih (Node.everywhere_leaf_cons.mp h).2
  | branch head children rest ihc ihr =>
      obtain ⟨-, hchildren, hrest⟩ := Node.everywhere_branch_cons.mp h
      have hown : breach? head children = none := by
        apply Selection.breach?_eq_none_iff.mpr
        intro _ node hnode
        exact isBadMember_of_lawful (hchildren.of_mem hnode)
      simp [Selection.breachesAll, Selection.breaches, hown, ihc hchildren, ihr hrest]

theorem memberFindings_of_lawful {node : Node} (enumName : String) (h : node.label.Lawful) :
    node.memberFindings enumName = [] := by
  rcases node with _ | (_ | _ | item | _ | _ | _)
  case leaf.field =>
    cases hmember : item.enumMember with
    | false => simp [Node.memberFindings, hmember]
    | true =>
        have hconstant : item.isPublicConstant = true := h hmember
        simp only [Field.isPublicConstant, Bool.and_eq_true, beq_iff_eq] at hconstant
        simp [Node.memberFindings, hconstant]
  all_goals rfl

/-- Among lawful labels, all that can be wrong with a node is its location or its name. -/
theorem findings_of_lawful {nodes : List Node} (h : Node.Everywhere Label.Lawful nodes)
    {node : Node} (hnode : node ∈ Node.preorderAll nodes) {x : Finding} (hx : x ∈ node.findings) :
    (∃ kind location, x = .unnamed kind location) ∨
      x = .inverted node.kind node.location ∧ node.location.inverted = true := by
  unfold Node.findings at hx
  rw [List.mem_append, List.mem_append] at hx
  rcases hx with (hx | hx) | hx
  · split_ifs at hx with hinverted
    · exact .inr ⟨List.mem_singleton.mp hx, hinverted⟩
    · cases hx
  · exfalso
    have hlabel := h node hnode
    rcases node with ⟨head, children⟩ | item
    · cases head with
      | file head => exact hlabel
      | package head => cases hx
      | type head =>
          simp only [Node.branchFindings] at hx
          split_ifs at hx
          · obtain ⟨child, hchild, hx⟩ := List.mem_flatMap.mp hx
            have hlawful := h child (Node.mem_preorderAll_of_child hnode hchild)
            rw [memberFindings_of_lawful head.name hlawful] at hx
            cases hx
          · cases hx
    · cases hx
  · split_ifs at hx
    · exact .inl ⟨node.kind, node.location, List.mem_singleton.mp hx⟩
    · cases hx

/-! ## Outlines -/

theorem location_label (node : Node) : node.label.location = node.location := by
  cases node <;> rfl

theorem outline_findings (g : Grammar) (path : String) (bytes : List UInt8) (tree : ParseTree)
    {x : Finding} (hx : x ∈ (g.outline path bytes tree).findings) :
    (∃ kind location, x = .unnamed kind location) ∨
      ∃ kind location, x = .inverted kind location ∧ ¬ tree.WellSpanned := by
  rw [Outline.findings, Outline.walk, Node.walk_eq_preorderAll] at hx
  obtain ⟨node, hnode, hx⟩ := List.mem_flatMap.mp hx
  have hplaced := tree.placed_of_forall (fun _ => trivial) (Text.decodeLossy bytes)
  have hlawful := (outline_labels g path hplaced).imp fun l hl => hl.1
  rcases findings_of_lawful hlawful hnode hx with hx | ⟨hx, hinverted⟩
  · exact .inl hx
  · refine .inr ⟨node.kind, node.location, hx, ?_⟩
    intro hspans
    have hlocation := (outline_labels g path (hspans.placed _) node hnode).2
    rw [location_label, hinverted] at hlocation
    cases hlocation

theorem prune_outline (s : Selection) (g : Grammar) (path : String) (bytes : List UInt8)
    (tree : ParseTree) : ∃ o, s.prune (g.outline path bytes tree) = .ok o := by
  have hplaced := tree.placed_of_forall (fun _ => trivial) (Text.decodeLossy bytes)
  have hlawful := (outline_labels g path hplaced).imp fun l hl => hl.1
  exact ⟨_, Selection.prune_eq_ok_iff.mpr ⟨breachesAll_eq_nil s hlawful, rfl⟩⟩

/-- A source with a parse tree of any shape is condensed under any selection, and an audit of its
outline only finds missing names and inverted locations; the latter only if the ranges of the tree
are not in order. -/
theorem outline_safe (g : Grammar) (path : String) (bytes : List UInt8) (tree : ParseTree) :
    (∀ (r : Registry) (settings : Settings), r.frontendFor? path = some (.parsing g) →
      ∃ o, condense r settings path { bytes := bytes, tree := some tree } = .ok o) ∧
    (∀ x ∈ (g.outline path bytes tree).findings,
      (∃ kind location, x = .unnamed kind location) ∨
        ∃ kind location, x = .inverted kind location) ∧
    (tree.WellSpanned → ∀ x ∈ (g.outline path bytes tree).findings,
      ∃ kind location, x = .unnamed kind location) := by
  refine ⟨?_, ?_, ?_⟩
  · intro r settings hfrontend
    obtain ⟨o, ho⟩ := prune_outline settings.selection g path bytes tree
    have houtline : r.outlineOf path { bytes := bytes, tree := some tree } =
        .ok (g.outline path bytes tree) := by
      simp [Registry.outlineOf, Registry.outline, hfrontend, Frontend.outline, Except.mapError]
    refine ⟨o, ?_⟩
    rw [condense, houtline]
    simp [Selection.condense, ho, bind, Except.bind, Except.mapError]
  · intro x hx
    rcases outline_findings g path bytes tree hx with hx | ⟨kind, location, hx, -⟩
    · exact .inl hx
    · exact .inr ⟨kind, location, hx⟩
  · intro hspans x hx
    rcases outline_findings g path bytes tree hx with hx | ⟨kind, location, -, hnot⟩
    · exact hx
    · exact absurd hspans hnot

/-! ## A specimen -/

/-- The parse tree of `enum Colour { RED }`. -/
def colourTree : ParseTree :=
  ⟨"program", "", true, false, false, 0, 19,
    [⟨"enum_declaration", "", true, false, false, 0, 19,
      [⟨"enum", "", false, false, false, 0, 4, []⟩,
       ⟨"identifier", "name", true, false, false, 5, 11, []⟩,
       ⟨"enum_body", "body", true, false, false, 12, 19,
        [⟨"\x7b", "", false, false, false, 12, 13, []⟩,
         ⟨"enum_constant", "", true, false, false, 14, 17,
          [⟨"identifier", "name", true, false, false, 14, 17, []⟩]⟩,
         ⟨"\x7d", "", false, false, false, 18, 19, []⟩]⟩]⟩]⟩

theorem colourTree_wellSpanned : colourTree.WellSpanned := by
  refine .intro (by decide) ?_
  repeat' first
    | refine List.forall_mem_cons.mpr ⟨.intro (by decide) ?_, ?_⟩
    | exact List.forall_mem_nil _

/-- The bytes of `enum Colour { RED }`. -/
def colourBytes : List UInt8 :=
  Text.encode "enum Colour \x7b RED \x7d".toList

theorem outline_safe_colour :
    Registry.standard.frontendFor? "Colour.java" = some (.parsing .java) ∧
    colourTree.WellSpanned ∧
    (∃ o, condense .standard {} "Colour.java" { bytes := colourBytes, tree := some colourTree } =
      .ok o) ∧
    ∀ x ∈ (Grammar.java.outline "Colour.java" colourBytes colourTree).findings,
      ∃ kind location, x = .unnamed kind location := by
  have hfrontend : Registry.standard.frontendFor? "Colour.java" = some (.parsing .java) := by
    decide +kernel
  have hsafe := outline_safe .java "Colour.java" colourBytes colourTree
  exact ⟨hfrontend, colourTree_wellSpanned, hsafe.1 .standard {} hfrontend,
    hsafe.2.2 colourTree_wellSpanned⟩

end Precis
