import Precis.Proofs.Condensing.Contents
import Precis.Proofs.Enums.Java
import Precis.Proofs.Enums.Rust

/-! # Enums in condensed outlines

A selection with fields leaves every enum that it keeps with all its members, whichever
visibilities it keeps. -/

namespace Precis

/-- What a grammar calls enums and their members; the classes of Python are never taken for
enums. -/
def Grammar.enumWords? : Grammar → Option EnumWords
  | rust => some Rust.enumWords
  | java => some Java.enumWords
  | python => none

theorem nodes_tallies {g : Grammar} {w : EnumWords} (h : g.enumWords? = some w)
    (text : List Char) (tree : ParseTree) :
    Tallies w text (g.nodes text tree) [] (w.declarations tree) := by
  cases g with
  | rust =>
      obtain rfl := Option.some.inj h
      exact Rust.items_tallies tree
  | python => cases h
  | java =>
      obtain rfl := Option.some.inj h
      exact (Java.tallied tree).members .file

theorem outline_tallies {g : Grammar} {w : EnumWords} (h : g.enumWords? = some w) (path : String)
    (bytes : List UInt8) (tree : ParseTree) :
    Tallies w (Text.decodeLossy bytes) (g.outline path bytes tree).children []
      (w.declarations tree) := by
  have hproblems : Tallies w (Text.decodeLossy bytes)
      ((sourceProblems bytes tree).map fun problem => Node.leaf (.problem problem)) [] [] := by
    apply Tallies.leaves
    intro node hnode
    obtain ⟨problem, -, rfl⟩ := List.mem_map.mp hnode
    exact ⟨_, rfl, rfl⟩
  simpa [Grammar.outline] using (nodes_tallies h (Text.decodeLossy bytes) tree).append hproblems

/-- The enums of a condensed outline stand for enums of the parse tree, in order. Each has exactly
the members that are spelled in the body of its declaration, in order and under their names, public,
static and constant; no other child is marked as a member. A selection with fields is all that this
needs, whichever visibilities it keeps. -/
theorem condense_enums {r : Registry} {path : String} {g : Grammar} {w : EnumWords}
    (settings : Settings) (bytes : List UInt8) (tree : ParseTree)
    (hfrontend : r.frontendFor? path = some (.parsing g)) (hwords : g.enumWords? = some w)
    (hfields : settings.selection.fields = true) :
    ∃ o, condense r settings path { bytes := bytes, tree := some tree } = .ok o ∧
      List.SublistForall₂ (Node.Enumerates w (Text.decodeLossy bytes))
        (o.walk.filter Node.isEnum) (w.declarations tree) := by
  refine ⟨_, (condense_eq settings bytes tree hfrontend).2, ?_⟩
  rw [Outline.walk, Node.walk_eq_preorderAll]
  exact ((outline_tallies hwords path bytes tree).remnants hfields).enums

/-! ## A specimen -/

theorem Node.Enumerates.names {w : EnumWords} {source : List Char} {node : Node} {t : ParseTree}
    (h : node.Enumerates w source t) :
    (Node.memberFields node.children).map (fun f => some f.name) =
      (w.membersOf t).map fun member => (member.textOf? "name" source).map String.ofList := by
  rw [← List.forall₂_eq_eq_eq, List.forall₂_map_left_iff, List.forall₂_map_right_iff]
  exact h.members.imp fun _ _ hf => hf.name.symm

theorem outline_colour (text : List Char) :
    ∃ head children, Java.outline text colourTree = [.branch (.type head) children] ∧
      head.kind = .enumType ∧ head.visibility = .package := by
  have hpackage : ∀ t : ParseTree, t.firstOfKind? "modifiers" = none →
      Java.visibility .file t = .package := by
    intro t ht
    simp [Java.visibility, Java.access?, Java.modifierParts, ht, Java.Owner.visibility]
  rw [Java.outline, Java.members_eq]
  simp [colourTree, ParseTree.parts, Java.isComment, Java.member_of_enum, Java.enumHead?,
    Java.typeHead?, ParseTree.textOf?, ParseTree.child?, ParseTree.firstOfKind?, arrange,
    arrangeFrom, document, standalone, hpackage]

/-- Without private items, the enum `Colour` still has its constant. -/
theorem condense_enums_colour :
    ∃ o, condense .standard { selection := { internalItems := true } } "Colour.java"
        { bytes := colourBytes, tree := some colourTree } = .ok o ∧
      ∃ node ∈ o.walk, node.isEnum = true ∧
        (Node.memberFields node.children).map Field.name = ["RED"] := by
  have hfrontend : Registry.standard.frontendFor? "Colour.java" = some (.parsing .java) := by
    decide +kernel
  have hspelled : ∀ t ∈ Java.enumWords.declarations colourTree,
      ((Java.enumWords.membersOf t).map fun constant =>
        (constant.textOf? "name" (Text.decodeLossy colourBytes)).map String.ofList) =
      [some "RED"] := by
    decide +kernel
  obtain ⟨o, ho, henums⟩ := condense_enums { selection := { internalItems := true } } colourBytes
    colourTree hfrontend rfl rfl
  obtain ⟨node, hnode, henum⟩ : ∃ node ∈ o.walk, node.isEnum = true := by
    obtain rfl := Except.ok.inj (ho.symm.trans (condense_eq _ _ _ hfrontend).2)
    obtain ⟨head, children, houtline, hkind, hvisibility⟩ :=
      outline_colour (Text.decodeLossy colourBytes)
    refine ⟨.branch (Selection.trimHead { internalItems := true } (.type head))
      (Selection.remnants { internalItems := true } children), ?_, ?_⟩
    · rw [Outline.walk, Node.walk_eq_preorderAll]
      apply Node.mem_preorderAll_of_mem
      dsimp only [Grammar.outline, Grammar.nodes]
      rw [houtline, List.singleton_append, Selection.remnants, Selection.remnant]
      simp [Selection.keepsHead, Selection.admits, hvisibility]
    · simp [Node.isEnum, Node.kind, Selection.trimHead, Head.kind, hkind]
  refine ⟨o, ho, node, hnode, henum, ?_⟩
  obtain ⟨t, ht, hnames⟩ := exists_of_mem_sublistForall₂ henums (List.mem_filter.mpr ⟨hnode, henum⟩)
  apply List.map_injective_iff.mpr fun _ _ => Option.some.inj
  rw [List.map_map]
  exact hnames.names.trans (hspelled t ht)

end Precis
