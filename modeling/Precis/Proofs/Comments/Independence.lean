import Precis.Proofs.Comments.Java
import Precis.Proofs.Comments.Python
import Precis.Proofs.Comments.Rust

/-! # Declarations do not depend on comments

What is left of an outline without its comments is the same whether or not the comments were in the
parse tree, as long as no comment stands where a frontend reads a child whatever it is. Where one
does, it is taken for a type, or it keeps a receiver, an assignment or a keyword from being seen. -/

namespace Precis

namespace Grammar

/-- Whether a node is a comment of the language. -/
def isComment : Grammar → ParseTree → Bool
  | rust => Rust.isComment
  | python => Python.isComment
  | java => Java.isComment

/-- The children of a node that the frontend reads whatever they are. -/
def heeded : Grammar → ParseTree → List ParseTree
  | rust => Rust.heeded
  | python => Python.heeded
  | java => Java.heeded

/-- The comments of a parse tree keep out of the way of the frontend. -/
def Discreet (g : Grammar) (tree : ParseTree) : Prop :=
  tree.Throughout (ParseTree.Discreet g.isComment g.heeded)

theorem nodes_unremarked (g : Grammar) (text : List Char) {tree : ParseTree}
    (h : g.Discreet tree) : Node.Alike (g.nodes text tree.unremarked) (g.nodes text tree) := by
  cases g with
  | rust => exact Rust.outline_unmoved h
  | python => exact Python.outline_unmoved h
  | java => exact Java.outline_unmoved h

end Grammar

/-! ## Problems -/

theorem ParseTree.missingReport_unremarked (t : ParseTree) (source : List Char) :
    t.unremarked.missingReport source = t.missingReport source := by
  unfold missingReport
  rw [kind_unremarked, location_unremarked]

theorem ParseTree.faultReport_unremarked (t : ParseTree) (source : List Char) :
    t.unremarked.faultReport source = t.faultReport source := by
  unfold faultReport
  rw [text_unremarked, location_unremarked]

theorem ParseTree.reports_unremarked {own : ParseTree → Bool} {heeded : ParseTree → List ParseTree}
    {t : ParseTree} (h : t.Throughout (Discreet own heeded)) (source : List Char) :
    t.unremarked.reports source = t.reports source := by
  induction h with
  | @intro t here below ih =>
      have hbelow : t.unremarked.children.flatMap (reports source) =
          t.children.flatMap (reports source) := by
        rw [children_unremarked]
        refine flatMap_unremarkedAll ?_ ?_
        · exact fun c hc hremark => reports_eq_nil source (here.sound c hc hremark)
        · exact fun c hc _ => ih c hc
      rw [reports_eq, reports_eq, hbelow, missing_unremarked, faulty_unremarked,
        missingReport_unremarked, faultReport_unremarked]

theorem sourceProblems_unremarked {g : Grammar} {tree : ParseTree} (h : g.Discreet tree)
    (bytes : List UInt8) : sourceProblems bytes tree.unremarked = sourceProblems bytes tree := by
  rw [sourceProblems_eq, sourceProblems_eq, ParseTree.reports_unremarked h,
    ParseTree.location_unremarked]

/-! ## Outlines -/

theorem remnants_of_alike {s : Selection} (hcomments : s.comments = false) (hdocs : s.docs = false)
    {xs ys : List Node} (h : Node.Alike xs ys) : s.remnants xs = s.remnants ys := by
  rw [← Selection.meet_silent hcomments hdocs, ← Selection.remnants_remnants,
    ← Selection.remnants_remnants, h]

/-- An outline without comments is that of the parse tree without its comments. -/
theorem prune_unremarked {g : Grammar} {tree : ParseTree} (h : g.Discreet tree) (path : String)
    (bytes : List UInt8) {s : Selection} (hcomments : s.comments = false) (hdocs : s.docs = false) :
    ∃ o, s.prune (g.outline path bytes tree) = .ok o ∧
      s.prune (g.outline path bytes tree.unremarked) = .ok o := by
  obtain ⟨o, ho⟩ := prune_outline s g path bytes tree
  obtain ⟨o', ho'⟩ := prune_outline s g path bytes tree.unremarked
  have hchildren : s.remnants (g.outline path bytes tree.unremarked).children =
      s.remnants (g.outline path bytes tree).children := by
    refine remnants_of_alike hcomments hdocs ?_
    simp only [Grammar.outline, sourceProblems_unremarked h]
    exact (g.nodes_unremarked _ h).append (.refl _)
  obtain ⟨-, rfl⟩ := Selection.prune_eq_ok_iff.mp ho
  obtain ⟨-, rfl⟩ := Selection.prune_eq_ok_iff.mp ho'
  refine ⟨_, ho, ho'.trans ?_⟩
  rw [hchildren]
  simp only [Grammar.outline, ParseTree.location_unremarked]

/-! ## Specimens -/

/-- Package-private declarations without comments. -/
def hushed : Selection where
  internalItems := true
  docs := false

/-- The bytes of a class with a comment before its list of interfaces. -/
def asideBytes : List UInt8 :=
  Text.encode "class A implements /* c */ B \x7b\x7d".toList

/-- The parse tree of these bytes. -/
def asideTree : ParseTree :=
  ⟨"program", "", true, false, false, 0, 31,
    [⟨"class_declaration", "", true, false, false, 0, 31,
      [⟨"class", "", false, false, false, 0, 5, []⟩,
       ⟨"identifier", "name", true, false, false, 6, 7, []⟩,
       ⟨"super_interfaces", "interfaces", true, false, false, 8, 28,
        [⟨"implements", "", false, false, false, 8, 18, []⟩,
         ⟨"block_comment", "", true, false, false, 19, 26, []⟩,
         ⟨"type_list", "", true, false, false, 27, 28,
          [⟨"type_identifier", "", true, false, false, 27, 28, []⟩]⟩]⟩,
       ⟨"class_body", "body", true, false, false, 29, 31,
        [⟨"\x7b", "", false, false, false, 29, 30, []⟩,
         ⟨"\x7d", "", false, false, false, 30, 31, []⟩]⟩]⟩]⟩

theorem discreet_asideTree : Grammar.java.Discreet asideTree := by
  refine .intro ⟨by decide, by decide, by decide, by decide⟩ ?_
  repeat' first
    | refine List.forall_mem_cons.mpr
        ⟨.intro ⟨by decide, by decide, by decide, by decide⟩ ?_, ?_⟩
    | exact List.forall_mem_nil _

theorem prune_unremarked_aside :
    Grammar.java.Discreet asideTree ∧ hushed.comments = false ∧ hushed.docs = false ∧
    ∃ o, hushed.prune (Grammar.java.outline "A.java" asideBytes asideTree) = .ok o ∧
      hushed.prune (Grammar.java.outline "A.java" asideBytes asideTree.unremarked) = .ok o := by
  refine ⟨discreet_asideTree, rfl, rfl, ?_⟩
  exact prune_unremarked discreet_asideTree "A.java" asideBytes rfl rfl

/-- The names of the interfaces of the outermost types. -/
def Outline.interfaceNames (o : Outline) : List String :=
  o.children.flatMap fun
    | .branch (.type head) _ => head.interfaces.map TypeExpr.name
    | _ => []

/-- A file with a single element has what this element declares. -/
theorem Java.outline_single (source : List Char) (root t : ParseTree) (hparts : root.parts = [t])
    (hcomment : isComment t = false) : outline source root = member source .file t := by
  rw [outline, members_eq, hparts]
  simp [hcomment, arrange, arrangeFrom, document, standalone]

/-- A class whose body is empty. -/
theorem Java.member_of_emptyClass (source : List Char) (owner : Owner) {t block : ParseTree}
    (hkind : t.kind = "class_declaration") (hbody : t.child? "body" = some block)
    (hparts : block.parts = []) :
    member source owner t = (classHead? source owner t).toList.map fun head =>
      .branch (.type head) [] := by
  have hempty : body source .classType t = [] := by
    rw [body_eq, hbody, Option.map_some, Option.getD_some, members_eq, hparts]
    rfl
  rw [member, if_pos hkind, hempty]

/-- The bytes of a class with comments before and inside its list of interfaces. -/
def intrudingBytes : List UInt8 :=
  Text.encode "class A implements /* c */ B, /* d */ C \x7b\x7d".toList

/-- The class that the bytes spell, with these nodes before and inside its list of interfaces. -/
def intrudingClass (before inside : List ParseTree) : ParseTree :=
  ⟨"class_declaration", "", true, false, false, 0, 42,
    [⟨"class", "", false, false, false, 0, 5, []⟩,
     ⟨"identifier", "name", true, false, false, 6, 7, []⟩,
     ⟨"super_interfaces", "interfaces", true, false, false, 8, 39,
      ⟨"implements", "", false, false, false, 8, 18, []⟩ :: (before ++
      [⟨"type_list", "", true, false, false, 27, 39,
        ⟨"type_identifier", "", true, false, false, 27, 28, []⟩ ::
        ⟨",", "", false, false, false, 28, 29, []⟩ :: (inside ++
        [⟨"type_identifier", "", true, false, false, 38, 39, []⟩])⟩])⟩,
     ⟨"class_body", "body", true, false, false, 40, 42,
      [⟨"\x7b", "", false, false, false, 40, 41, []⟩,
       ⟨"\x7d", "", false, false, false, 41, 42, []⟩]⟩]⟩

/-- The parse tree of the bytes. -/
def intrudingTree : ParseTree :=
  ⟨"program", "", true, false, false, 0, 42,
    [intrudingClass [⟨"block_comment", "", true, false, false, 19, 26, []⟩]
      [⟨"block_comment", "", true, false, false, 30, 37, []⟩]]⟩

theorem unremarked_intrudingTree : intrudingTree.unremarked =
    ⟨"program", "", true, false, false, 0, 42, [intrudingClass [] []]⟩ :=
  rfl

/-- A comment inside a list of types is taken for a type. -/
theorem interfaceNames_intruding :
    (hushed.prune (Grammar.java.outline "Test.java" intrudingBytes intrudingTree)).map
      Outline.interfaceNames = .ok ["B", "/* d */", "C"] := by
  rw [Grammar.outline, Grammar.nodes, Java.outline_single _ intrudingTree _ rfl rfl,
    Java.member_of_emptyClass _ _ rfl rfl rfl]
  decide +kernel

theorem interfaceNames_unremarked_intruding :
    (hushed.prune (Grammar.java.outline "Test.java" intrudingBytes intrudingTree.unremarked)).map
      Outline.interfaceNames = .ok ["B", "C"] := by
  rw [unremarked_intrudingTree, Grammar.outline, Grammar.nodes,
    Java.outline_single _ _ (intrudingClass [] []) rfl rfl,
    Java.member_of_emptyClass _ _ rfl rfl rfl]
  decide +kernel

/-- Some comments do reach what is left of an outline without comments. -/
theorem prune_remarked_ne : ¬ ∀ (g : Grammar) (path : String) (bytes : List UInt8)
    (tree : ParseTree) (s : Selection), s.comments = false → s.docs = false →
      s.prune (g.outline path bytes tree) = s.prune (g.outline path bytes tree.unremarked) := by
  intro hall
  have hsame := hall .java "Test.java" intrudingBytes intrudingTree hushed rfl rfl
  have hnames := congrArg (Except.map Outline.interfaceNames) hsame
  rw [interfaceNames_intruding, interfaceNames_unremarked_intruding, Except.ok.injEq] at hnames
  exact absurd hnames (by decide)

end Precis
