import Precis.Frontend.Python
import Precis.Proofs.Outlining.Regular

/-! # Python outlines are regular -/

namespace Precis.Python

open Node

variable {ok : Location → Prop} {source : List Char}

/-! ## Docstrings -/

theorem docstring?_spec {t : ParseTree} {c : Comment} (h : docstring? source t = some c) :
    c.format = .doc ∧ c.location = t.location source := by
  unfold docstring? at h
  split at h
  · split_ifs at h
    obtain rfl := Option.some.inj h
    exact ⟨rfl, rfl⟩
  · cases h

/-- The docstring of a block stands where one of its statements stands. -/
theorem splitDocstring_doc {block : ParseTree} {c : Comment}
    (h : (splitDocstring source block).2.1 = some c) :
    ∃ t ∈ block.parts, c.format = .doc ∧ c.location = t.location source := by
  unfold splitDocstring at h
  dsimp only at h
  split at h
  · cases h
  · rename_i first rest hdrop
    have hfirst : first ∈ block.parts := by
      apply (List.dropWhile_sublist isComment).mem
      rw [hdrop]
      exact List.mem_cons_self
    split at h
    · rename_i doc hdoc
      obtain rfl := Option.some.inj h
      exact ⟨first, hfirst, docstring?_spec hdoc⟩
    · cases h

theorem isDocumentation_blockDoc? (t : ParseTree) :
    IsDocumentation ((t.child? "body").bind (blockDoc? source)) := by
  intro c hc
  obtain ⟨block, -, hdoc⟩ := Option.bind_eq_some_iff.mp hc
  obtain ⟨statement, -, hformat, -⟩ := splitDocstring_doc hdoc
  exact hformat

theorem mem_parts_of_mem_blockStatements {block t : ParseTree}
    (h : t ∈ blockStatements source block) : t ∈ block.parts :=
  mem_parts_of_mem_splitDocstring (List.mem_append.mp h)

/-! ## Leaves -/

theorem function?_regular (scope : Scope) (decorators : List (List Char)) {t : ParseTree}
    (ht : ok (t.location source)) : Regular ok (function? source scope decorators t).toList := by
  apply regular_toList_map
  intro name
  exact regular_leaf.mpr ⟨ht, isDocumentation_blockDoc? t⟩

theorem moduleImports_regular {t : ParseTree} (ht : ok (t.location source)) :
    Regular ok (moduleImports source t) := by
  apply regular_iff_forall.mpr
  intro node hnode
  obtain ⟨name, -, rfl⟩ := List.mem_map.mp hnode
  exact regular_leaf.mpr ht

theorem field?_spec {t : ParseTree} {node : Node} (h : field? source t = some node) :
    ∃ assignment name modifiers, node = .leaf (.field
      { assignedField source t assignment name with modifiers := modifiers }) := by
  simp only [field?, Option.bind_eq_bind, Option.bind_eq_some_iff] at h
  obtain ⟨assignment, -, left, -, h⟩ := h
  split_ifs at h
  · exact ⟨assignment, _, _, (Option.some.inj h).symm⟩
  · exact ⟨assignment, _, _, (Option.some.inj h).symm⟩

theorem field?_regular {t : ParseTree} (ht : ok (t.location source)) :
    Regular ok (field? source t).toList := by
  apply regular_toList
  intro node hnode
  obtain ⟨assignment, name, modifiers, rfl⟩ := field?_spec hnode
  exact regular_leaf.mpr ⟨ht, isDocumentation_none, by simp [assignedField]⟩

theorem plainStatement_regular (scope : Scope) {t : ParseTree} (ht : ok (t.location source)) :
    Regular ok (plainStatement source scope t) := by
  unfold plainStatement
  apply regular_ite
  · exact moduleImports_regular ht
  apply regular_ite
  · exact regular_leaf.mpr ht
  apply regular_ite
  · exact function?_regular scope [] ht
  apply regular_ite
  · exact field?_regular ht
  apply regular_ite
  · exact regular_leaf.mpr ht
  · exact regular_nil

theorem mem_of_assignment? {t assignment : ParseTree} (h : assignment? t = some assignment) :
    assignment ∈ t.parts := by
  rw [assignment?] at h
  split at h
  · rename_i first rest hparts
    split_ifs at h
    obtain rfl := Option.some.inj h
    rw [hparts]
    exact List.mem_cons_self
  · cases h

/-! ## Instance fields -/

theorem selfField?_spec {t : ParseTree} {field : Field} (h : selfField? source t = some field) :
    ∃ assignment name, field = assignedField source t assignment name := by
  simp only [selfField?, Option.bind_eq_bind] at h
  split_ifs at h
  · simp only [Option.bind_eq_some_iff] at h
    obtain ⟨assignment, -, left, -, name, -, h⟩ := h
    split_ifs at h
    exact ⟨assignment, name, (Option.some.inj h).symm⟩
  · cases h

theorem newFields_sublist (seen : List String) (fields : List Field) :
    (newFields seen fields).Sublist fields := by
  induction fields generalizing seen with
  | nil => exact List.Sublist.refl []
  | cons field rest ih =>
      rw [newFields]
      split
      · exact (ih seen).cons field
      · exact (ih _).cons_cons field

/-- The definition that a statement in a class body is, under its decorators. -/
def undecorated (t : ParseTree) : Option ParseTree :=
  if t.kind = "decorated_definition" then t.child? "definition" else some t

/-- Whether a definition is an initialiser. -/
def isInitialiser (source : List Char) (t : ParseTree) : Bool :=
  t.kind == "function_definition" && t.textOf? "name" source == some "__init__".toList

theorem initialiser?_eq (source : List Char) (body : ParseTree) :
    initialiser? source body =
      (body.parts.find? fun part => (undecorated part).any (isInitialiser source)).bind
        undecorated :=
  List.find?_filterMap

theorem initialiser?_placed {body t : ParseTree} (hbody : body.Placed ok source)
    (h : initialiser? source body = some t) : t.Placed ok source := by
  obtain ⟨part, hpart, ht⟩ := List.mem_filterMap.mp (List.mem_of_find?_eq_some h)
  split_ifs at ht
  · exact (hbody.part hpart).child? ht
  · obtain rfl := Option.some.inj ht
    exact hbody.part hpart

theorem instanceFields_regular {body : ParseTree} (hbody : body.Placed ok source)
    (members : List Node) : Regular ok (instanceFields source body members) := by
  unfold instanceFields
  split
  · exact regular_nil
  · rename_i block hblock
    obtain ⟨initialiser, hinitialiser, hblock⟩ := Option.bind_eq_some_iff.mp hblock
    have hplaced := (initialiser?_placed hbody hinitialiser).child? hblock
    apply regular_iff_forall.mpr
    intro node hnode
    obtain ⟨field, hfield, rfl⟩ := List.mem_map.mp hnode
    obtain ⟨t, ht, hself⟩ := List.mem_filterMap.mp ((newFields_sublist _ _).mem hfield)
    obtain ⟨assignment, name, rfl⟩ := selfField?_spec hself
    exact regular_leaf.mpr
      ⟨(hplaced.part ht).here.1, isDocumentation_none, by simp [assignedField]⟩

/-! ## Statements -/

/-- A docstring declares nothing as a statement. -/
theorem statement_of_docstring? (scope : Scope) {t : ParseTree} {doc : Comment}
    (hdoc : docstring? source t = some doc) : statement source scope t = [] := by
  unfold docstring? at hdoc
  split at hdoc
  · rename_i part hparts
    split_ifs at hdoc with hkinds
    have hassignment : assignment? t = none := by simp [assignment?, hparts, hkinds.2]
    simp [statement_eq, plainStatement, hkinds.1, field?, hassignment]
  · cases hdoc

/-- What the statements of a block declare, its docstring among them or not. -/
theorem flatMap_splitDocstring (source : List Char) (scope : Scope) (block : ParseTree) :
    (splitDocstring source block).1.flatMap (statement source scope) ++
        (splitDocstring source block).2.2.flatMap (statement source scope) =
      block.parts.flatMap (statement source scope) := by
  have hparts := List.takeWhile_append_dropWhile (p := isComment) (l := block.parts)
  conv => rhs; rw [← hparts, List.flatMap_append]
  unfold splitDocstring
  cases hdrop : block.parts.dropWhile isComment with
  | nil => rfl
  | cons first rest =>
      cases hdoc : docstring? source first with
      | none => simp only [hdoc]
      | some doc =>
          simp only [hdoc, List.flatMap_cons, statement_of_docstring? scope hdoc, List.nil_append]

theorem flatMap_blockStatements (source : List Char) (scope : Scope) (block : ParseTree) :
    (blockStatements source block).flatMap (statement source scope) =
      block.parts.flatMap (statement source scope) := by
  rw [blockStatements, List.flatMap_append]
  exact flatMap_splitDocstring source scope block

/-- What a node gives is regular, whether it stands as a statement, as the definition of a class
or as the body of a class. -/
structure Outlined (ok : Location → Prop) (source : List Char) (t : ParseTree) : Prop where
  statement : ∀ scope, Regular ok (statement source scope t)
  class? : ∀ decorators, Regular ok (class? source decorators t).toList
  block : Regular ok ((blockStatements source t).flatMap (Python.statement source .classBody))

theorem class?_regular {t : ParseTree} (ht : t.Placed ok source)
    (ih : ∀ c ∈ t.children, Outlined ok source c) (decorators : List (List Char)) :
    Regular ok (class? source decorators t).toList := by
  rw [class?_eq]
  apply regular_toList
  intro node hnode
  obtain ⟨head, hhead, rfl⟩ := Option.map_eq_some_iff.mp hnode
  obtain ⟨name, -, rfl⟩ := Option.map_eq_some_iff.mp hhead
  refine regular_branch.mpr ⟨⟨ht.here.1, isDocumentation_blockDoc? t⟩, ?_⟩
  cases hbody : t.child? "body" with
  | none => exact regular_nil
  | some body =>
      have hblock := (ih body (ParseTree.mem_of_child? hbody)).block
      exact regular_append.mpr ⟨hblock, instanceFields_regular (ht.child? hbody) _⟩

theorem statement_regular {t : ParseTree} (ht : t.Placed ok source)
    (ih : ∀ c ∈ t.children, Outlined ok source c) (scope : Scope) :
    Regular ok (statement source scope t) := by
  rw [statement_eq]
  apply regular_ite
  · exact class?_regular ht ih []
  apply regular_ite
  · split
    · exact regular_nil
    · rename_i definition hdefinition
      apply regular_ite
      · exact (ih definition (ParseTree.mem_of_child? hdefinition)).class? _
      apply regular_ite
      · exact function?_regular scope _ (ht.child? hdefinition).here.1
      · exact regular_nil
  · exact plainStatement_regular scope ht.here.1

theorem outlined_of_placed {t : ParseTree} (ht : t.Placed ok source) : Outlined ok source t := by
  unfold ParseTree.Placed at ht
  induction ht with
  | @intro t here below ih =>
      have ht : t.Placed ok source := .intro here below
      refine ⟨statement_regular ht ih, class?_regular ht ih, ?_⟩
      apply regular_flatMap
      intro s hs
      have hpart := mem_parts_of_mem_blockStatements hs
      exact (ih s (ParseTree.mem_of_mem_parts hpart)).statement .classBody

theorem outline_regular {root : ParseTree} (h : root.Placed ok source) :
    Regular ok (outline source root) := by
  have hstatement : ∀ t ∈ root.parts, Regular ok (statement source .module t) := by
    intro t ht
    exact (outlined_of_placed (h.part ht)).statement .module
  unfold outline
  dsimp only
  refine regular_append.mpr ⟨regular_append.mpr ⟨?_, ?_⟩, ?_⟩
  · apply regular_flatMap
    intro t ht
    exact hstatement t (mem_parts_of_mem_splitDocstring (.inl ht))
  · apply regular_toList
    intro node hnode
    obtain ⟨c, hc, rfl⟩ := Option.map_eq_some_iff.mp hnode
    obtain ⟨t, ht, -, hlocation⟩ := splitDocstring_doc hc
    have hplace : ok c.location := hlocation ▸ (h.part ht).here.1
    exact regular_leaf.mpr hplace
  · apply regular_flatMap
    intro t ht
    exact hstatement t (mem_parts_of_mem_splitDocstring (.inr ht))

end Precis.Python
