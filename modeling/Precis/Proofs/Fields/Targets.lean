import Precis.Frontend
import Precis.Proofs.Fields.Initialisers

/-! # What Python fields are declared by

Every field of an outline goes back to an assignment statement of the parse tree. Among the
statements of a module or class the left side of the assignment is an identifier. Among those of an
initialiser it is told by its text alone, so that it is the attribute that the field is named for
only where no other expression is spelled like one. -/

namespace Precis

/-! ## Declarations -/

namespace Python

open Node ParseTree

variable {source : List Char} {root t assignment left : ParseTree} {sort : ParseTree → Prop}

/-- A statement starts with an assignment that has a left side. -/
structure AssignsTo (t assignment left : ParseTree) : Prop where
  statement : t.kind = "expression_statement"
  first : t.parts.head? = some assignment
  kind : assignment.kind = "assignment"
  target : assignment.child? "left" = some left

theorem AssignsAs.exists_assignsTo {name : List Char} (h : AssignsAs source t assignment name) :
    ∃ left, AssignsTo t assignment left ∧ left.text source = "self.".toList ++ name := by
  obtain ⟨left, hleft, htext⟩ := Option.map_eq_some_iff.mp h.target
  exact ⟨left, ⟨h.statement, h.first, h.kind, hleft⟩, htext⟩

/-- A node whose parts are the statements of the module or of a class. -/
def IsBlock (root block : ParseTree) : Prop :=
  block = root ∨ ∃ c ∈ root.preorder, c.kind = "class_definition" ∧ c.child? "body" = some block

/-- A statement at the top level of the first initialiser of a class. -/
def IsInitial (source : List Char) (root t : ParseTree) : Prop :=
  ∃ c ∈ root.preorder, c.kind = "class_definition" ∧ t ∈ initialStatements source c

/-- A field is declared by an assignment to its name in the module or in a class, or by an
assignment in an initialiser whose left side is spelled `self.` and the name and is of a sort. -/
inductive Declared (source : List Char) (root : ParseTree) (sort : ParseTree → Prop)
    (field : Field) : Prop where
  | plain {block t assignment left : ParseTree} (hblock : IsBlock root block) (ht : t ∈ block.parts)
      (hassigns : AssignsTo t assignment left) (hkind : left.kind = "identifier")
      (htext : left.text source = field.name.toList)
      (hcarries : Carries source t assignment field)
  | onSelf {t assignment left : ParseTree} (ht : IsInitial source root t)
      (hassigns : AssignsTo t assignment left) (hsort : sort left)
      (htext : left.text source = "self.".toList ++ field.name.toList)
      (hdot : '.' ∉ field.name.toList) (hcarries : Carries source t assignment field)

/-- A left side in an initialiser that is spelled like an attribute of `self`. -/
def SelfTarget (source : List Char) (root left : ParseTree) : Prop :=
  ∃ t assignment name, IsInitial source root t ∧ AssignsTo t assignment left ∧
    left.text source = "self.".toList ++ name ∧ '.' ∉ name

end Python

/-- A label is that of a declared field, or not that of a field. -/
def Label.Declared (source : List Char) (root : ParseTree) (sort : ParseTree → Prop) :
    Label → Prop
  | .leaf (.field item) => Python.Declared source root sort item
  | _ => True

namespace Python

open Node ParseTree

variable {source : List Char} {root t assignment left : ParseTree} {sort : ParseTree → Prop}

/-- All fields in a row of nodes and inside them are declared. -/
abbrev Traced (source : List Char) (root : ParseTree) (sort : ParseTree → Prop) :
    List Node → Prop :=
  Everywhere (Label.Declared source root sort)

/-! ## Single nodes -/

theorem traced_leaf {item : Leaf} (h : Label.Declared source root sort (.leaf item)) :
    Traced source root sort [.leaf item] :=
  everywhere_leaf_cons.mpr ⟨h, everywhere_nil⟩

theorem traced_function? (scope : Scope) (decorators : List (List Char)) (t : ParseTree) :
    Traced source root sort (function? source scope decorators t).toList := by
  apply everywhere_toList
  intro node hnode
  obtain ⟨name, -, rfl⟩ := Option.map_eq_some_iff.mp hnode
  exact traced_leaf trivial

theorem traced_moduleImports (t : ParseTree) :
    Traced source root sort (moduleImports source t) := by
  refine everywhere_iff_forall.mpr ?_
  intro node hnode
  obtain ⟨name, -, rfl⟩ := List.mem_map.mp hnode
  exact traced_leaf trivial

theorem field?_eq_some {node : Node} (hkind : t.kind = "expression_statement")
    (h : field? source t = some node) :
    ∃ assignment left field, AssignsTo t assignment left ∧ left.kind = "identifier" ∧
      node = .leaf (.field field) ∧ field.name = String.ofList (left.text source) ∧
      Carries source t assignment field := by
  simp only [field?, Option.bind_eq_bind, Option.bind_eq_some_iff, assignment?_eq_some_iff,
    Option.ite_none_right_eq_some, Option.some.injEq] at h
  obtain ⟨assignment, ⟨hfirst, hassignment⟩, left, hleft, hidentifier, rfl⟩ := h
  exact ⟨assignment, left, _, ⟨hkind, hfirst, hassignment, hleft⟩, hidentifier, rfl, rfl,
    ⟨rfl, rfl, rfl⟩⟩

theorem traced_field? {block : ParseTree} (hblock : IsBlock root block) (ht : t ∈ block.parts)
    (hkind : t.kind = "expression_statement") :
    Traced source root sort (field? source t).toList := by
  apply everywhere_toList
  intro node hnode
  obtain ⟨assignment, left, field, hassigns, hidentifier, rfl, hname, hcarries⟩ :=
    field?_eq_some hkind hnode
  refine traced_leaf (.plain hblock ht hassigns hidentifier ?_ hcarries)
  rw [hname, String.toList_ofList]

theorem traced_plainStatement {block : ParseTree} (hblock : IsBlock root block)
    (ht : t ∈ block.parts) (scope : Scope) :
    Traced source root sort (plainStatement source scope t) := by
  unfold plainStatement
  apply everywhere_ite
  · exact traced_moduleImports t
  apply everywhere_ite
  · exact traced_leaf trivial
  apply everywhere_ite
  · exact traced_function? scope [] t
  split_ifs with hexpression
  · exact traced_field? hblock ht hexpression
  · exact traced_leaf trivial
  · exact everywhere_nil

/-! ## Classes -/

theorem traced_newFields (hin : t ∈ root.preorder) (hclass : t.kind = "class_definition")
    (hsort : ∀ left, SelfTarget source root left → sort left) (taken : List String) :
    Traced source root sort
      ((newFields taken ((initialStatements source t).filterMap (selfField? source))).map
        fun field => .leaf (.field field)) := by
  refine everywhere_iff_forall.mpr ?_
  intro node hnode
  obtain ⟨field, hfield, rfl⟩ := List.mem_map.mp hnode
  obtain ⟨s, hs, hself⟩ := List.mem_filterMap.mp ((newFields_sublist _ _).mem hfield)
  obtain ⟨assignment, name, has, rfl⟩ := selfField?_eq_some_iff.mp hself
  obtain ⟨left, hto, htext⟩ := has.exists_assignsTo
  have hinitial : IsInitial source root s := ⟨t, hin, hclass, hs⟩
  have hleft : sort left := hsort left ⟨s, assignment, name, hinitial, hto, htext, has.undotted⟩
  refine traced_leaf (.onSelf hinitial hto hleft ?_ ?_ (carries_assignedField _ _ _ _))
  · simpa [assignedField] using htext
  · simpa [assignedField] using has.undotted

/-- The fields that a node gives are declared, whether it stands as a statement, as the definition
of a class or as the body of a class. -/
structure Sourced (source : List Char) (root : ParseTree) (sort : ParseTree → Prop)
    (t : ParseTree) : Prop where
  statement : ∀ block scope, IsBlock root block → t ∈ block.parts →
    Traced source root sort (statement source scope t)
  class? : t ∈ root.preorder → t.kind = "class_definition" → ∀ decorators,
    Traced source root sort (class? source decorators t).toList
  block : IsBlock root t →
    Traced source root sort (t.parts.flatMap (Python.statement source .classBody))

theorem IsBlock.mem_preorder {block : ParseTree} (h : IsBlock root block) :
    block ∈ root.preorder := by
  rcases h with rfl | ⟨c, hc, -, hbody⟩
  · exact mem_preorder_self _
  · exact mem_preorder_of_child (mem_of_child? hbody) hc

theorem traced_class? (hsort : ∀ left, SelfTarget source root left → sort left)
    (ih : ∀ c ∈ t.children, Sourced source root sort c) (hin : t ∈ root.preorder)
    (hclass : t.kind = "class_definition") (decorators : List (List Char)) :
    Traced source root sort (class? source decorators t).toList := by
  rw [class?_eq_append]
  apply everywhere_toList
  intro node hnode
  obtain ⟨head, -, rfl⟩ := Option.map_eq_some_iff.mp hnode
  refine everywhere_branch_cons.mpr ⟨trivial, everywhere_append.mpr ⟨?_, ?_⟩, everywhere_nil⟩
  · rw [bodyMembers, bodyParts]
    cases hbody : t.child? "body" with
    | none => exact everywhere_nil
    | some body => exact (ih body (mem_of_child? hbody)).block (.inr ⟨t, hin, hclass, hbody⟩)
  · exact traced_newFields hin hclass hsort _

theorem traced_statement (hsort : ∀ left, SelfTarget source root left → sort left)
    (ih : ∀ c ∈ t.children, Sourced source root sort c) {block : ParseTree}
    (hblock : IsBlock root block) (ht : t ∈ block.parts) (scope : Scope) :
    Traced source root sort (statement source scope t) := by
  have hin : t ∈ root.preorder := mem_preorder_of_child (mem_of_mem_parts ht) hblock.mem_preorder
  rw [statement_eq]
  split_ifs with hclass hdecorated
  · exact traced_class? hsort ih hin hclass []
  · cases hdefinition : t.child? "definition" with
    | none => exact everywhere_nil
    | some definition =>
        have hchild := mem_of_child? hdefinition
        dsimp only
        split_ifs with hclass
        · exact (ih definition hchild).class? (mem_preorder_of_child hchild hin) hclass _
        · exact traced_function? scope _ definition
        · exact everywhere_nil
  · exact traced_plainStatement hblock ht scope

theorem sourced (hsort : ∀ left, SelfTarget source root left → sort left) (t : ParseTree) :
    Sourced source root sort t := by
  induction Throughout.of_forall (fun _ => trivial) t with
  | @intro t _ below ih =>
      refine ⟨fun _ scope hblock ht => traced_statement hsort ih hblock ht scope,
        traced_class? hsort ih, ?_⟩
      intro hblock
      apply everywhere_flatMap
      intro s hs
      exact (ih s (mem_of_mem_parts hs)).statement t _ hblock hs

theorem traced_outline (hsort : ∀ left, SelfTarget source root left → sort left) :
    Traced source root sort (outline source root) := by
  have hstatement : ∀ t ∈ root.parts, Traced source root sort (statement source .module t) :=
    fun t ht => (sourced hsort t).statement root _ (.inl rfl) ht
  unfold outline
  dsimp only
  refine everywhere_append.mpr ⟨everywhere_append.mpr ⟨?_, ?_⟩, ?_⟩
  · apply everywhere_flatMap
    intro t ht
    exact hstatement t (mem_parts_of_mem_splitDocstring (.inl ht))
  · apply everywhere_toList
    intro node hnode
    obtain ⟨c, -, rfl⟩ := Option.map_eq_some_iff.mp hnode
    exact traced_leaf trivial
  · apply everywhere_flatMap
    intro t ht
    exact hstatement t (mem_parts_of_mem_splitDocstring (.inr ht))

/-! ## Other left sides -/

theorem statement_eq_nil (h : AssignsTo t assignment left) (hkind : left.kind ≠ "identifier")
    (scope : Scope) : statement source scope t = [] := by
  have hfield : field? source t = none := by
    by_contra hsome
    obtain ⟨node, hnode⟩ := Option.ne_none_iff_exists'.mp hsome
    obtain ⟨assignment', left', _, h', hidentifier, -⟩ := field?_eq_some h.statement hnode
    obtain rfl := Option.some.inj (h.first.symm.trans h'.first)
    obtain rfl := Option.some.inj (h.target.symm.trans h'.target)
    exact hkind hidentifier
  simp [statement_eq, plainStatement, h.statement, hfield]

theorem selfField?_eq_none (hin : IsInitial source root t) (h : AssignsTo t assignment left)
    (hleft : ¬ SelfTarget source root left) : selfField? source t = none := by
  by_contra hsome
  obtain ⟨field, hfield⟩ := Option.ne_none_iff_exists'.mp hsome
  obtain ⟨assignment', name, has, -⟩ := selfField?_eq_some_iff.mp hfield
  obtain ⟨left', h', htext⟩ := has.exists_assignsTo
  obtain rfl := Option.some.inj (h.first.symm.trans h'.first)
  obtain rfl := Option.some.inj (h.target.symm.trans h'.target)
  exact hleft ⟨t, assignment, name, hin, h, htext, has.undotted⟩

/-! ## Outlines -/

theorem declared_of_mem_walk (path : String) (bytes : List UInt8)
    (hsort : ∀ left, SelfTarget (Text.decodeLossy bytes) root left → sort left) {field : Field}
    (hfield : .leaf (.field field) ∈ (Grammar.python.outline path bytes root).walk) :
    Declared (Text.decodeLossy bytes) root sort field := by
  have hproblems : Traced (Text.decodeLossy bytes) root sort
      ((sourceProblems bytes root).map fun problem => .leaf (.problem problem)) := by
    refine everywhere_iff_forall.mpr ?_
    intro node hnode
    obtain ⟨problem, -, rfl⟩ := List.mem_map.mp hnode
    exact traced_leaf trivial
  have htraced : Traced (Text.decodeLossy bytes) root sort
      (Grammar.python.outline path bytes root).children :=
    everywhere_append.mpr ⟨traced_outline hsort, hproblems⟩
  rw [Outline.walk, walk_eq_preorderAll] at hfield
  exact htraced _ hfield

/-- Every field of an outline is declared by an assignment: to its name in the module or in a class,
or in an initialiser to what is spelled `self.` and its name. In the module and in classes nothing
else declares anything. In initialisers nothing but attributes declares a field, provided that
nothing but attributes is spelled like them there. -/
theorem outline_fields_declared (path : String) (bytes : List UInt8) (root : ParseTree) :
    (∀ field, .leaf (.field field) ∈ (Grammar.python.outline path bytes root).walk →
      Declared (Text.decodeLossy bytes) root (fun _ => True) field) ∧
    (∀ scope t assignment left, AssignsTo t assignment left → left.kind ≠ "identifier" →
      statement (Text.decodeLossy bytes) scope t = []) ∧
    ((∀ left, SelfTarget (Text.decodeLossy bytes) root left → left.kind = "attribute") →
      (∀ field, .leaf (.field field) ∈ (Grammar.python.outline path bytes root).walk →
        Declared (Text.decodeLossy bytes) root (fun left => left.kind = "attribute") field) ∧
      ∀ t assignment left, IsInitial (Text.decodeLossy bytes) root t →
        AssignsTo t assignment left → left.kind ≠ "attribute" →
        selfField? (Text.decodeLossy bytes) t = none) := by
  refine ⟨?_, ?_, ?_⟩
  · intro field hfield
    exact declared_of_mem_walk path bytes (fun _ _ => trivial) hfield
  · intro scope t assignment left h hkind
    exact statement_eq_nil h hkind scope
  · intro hattributes
    refine ⟨fun field hfield => declared_of_mem_walk path bytes hattributes hfield, ?_⟩
    intro t assignment left hin h hkind
    exact selfField?_eq_none hin h fun htarget => hkind (hattributes left htarget)

/-! ## Where assignments stand -/

theorem mem_preorder_of_mem_bodyParts {c : ParseTree} (hc : c ∈ root.preorder)
    (ht : t ∈ bodyParts c) : t ∈ root.preorder := by
  rw [bodyParts] at ht
  cases hbody : c.child? "body" with
  | none => simp [hbody] at ht
  | some body =>
      rw [hbody, Option.map_some, Option.getD_some] at ht
      have hin := mem_preorder_of_child (mem_of_child? hbody) hc
      exact mem_preorder_of_child (mem_of_mem_parts ht) hin

theorem IsInitial.mem_preorder (h : IsInitial source root t) : t ∈ root.preorder := by
  obtain ⟨c, hc, -, ht⟩ := h
  rw [initialStatements] at ht
  cases hfound : (definitions c).find? (isInitialiser source) with
  | none => simp [hfound] at ht
  | some initialiser =>
      rw [hfound, Option.map_some, Option.getD_some] at ht
      obtain ⟨part, hpart, hdefinition⟩ := List.mem_filterMap.mp (List.mem_of_find?_eq_some hfound)
      have hin := mem_preorder_of_mem_bodyParts hc hpart
      rw [undecorated] at hdefinition
      split_ifs at hdefinition
      · have hinitialiser := mem_preorder_of_child (mem_of_child? hdefinition) hin
        exact mem_preorder_of_mem_bodyParts hinitialiser ht
      · obtain rfl := Option.some.inj hdefinition
        exact mem_preorder_of_mem_bodyParts hin ht

theorem AssignsTo.mem_preorder (h : AssignsTo t assignment left) (ht : t ∈ root.preorder) :
    assignment ∈ root.preorder :=
  mem_preorder_of_child (mem_of_mem_parts (List.mem_of_head? h.first)) ht

/-- The sorts of the left sides in a tree bound those of the declarations in it. -/
theorem Declared.exists_assignment {field : Field} (h : Declared source root sort field) :
    ∃ assignment ∈ root.preorder, assignment.kind = "assignment" ∧
      ∃ left, assignment.child? "left" = some left ∧ (left.kind = "identifier" ∨ sort left) := by
  cases h with
  | plain hblock ht hassigns hkind =>
      have hin := mem_preorder_of_child (mem_of_mem_parts ht) hblock.mem_preorder
      exact ⟨_, hassigns.mem_preorder hin, hassigns.kind, _, hassigns.target, .inl hkind⟩
  | onSelf ht hassigns hsort =>
      exact ⟨_, hassigns.mem_preorder ht.mem_preorder, hassigns.kind, _, hassigns.target,
        .inr hsort⟩

/-! ## Specimens -/

/-- A module with a single class in it. -/
theorem outline_of_class (source : List Char) {root t : ParseTree} (hparts : root.parts = [t])
    (hkind : t.kind = "class_definition") : outline source root = (class? source [] t).toList := by
  have hsplit : splitDocstring source root = ([], none, [t]) := by
    have hdoc : docstring? source t = none := by
      unfold docstring?
      split <;> simp [hkind]
    simp [splitDocstring, hparts, isComment, hkind, hdoc]
  simp [outline, hsplit, statement_eq, hkind]

/-- A class in whose body there are only functions. -/
theorem class?_of_functions (source : List Char) (decorators : List (List Char))
    {t body : ParseTree} (hbody : t.child? "body" = some body)
    (hfunctions : ∀ s ∈ blockStatements source body, s.kind = "function_definition") :
    class? source decorators t = (classHead? source decorators t).map fun head =>
      let declared := (blockStatements source body).flatMap fun s =>
        (function? source .classBody [] s).toList
      .branch (.type head) (declared ++ instanceFields source body declared) := by
  have hdeclared : (blockStatements source body).flatMap (statement source .classBody) =
      (blockStatements source body).flatMap fun s => (function? source .classBody [] s).toList := by
    refine List.flatMap_congr fun s hs => ?_
    simp [statement_eq, plainStatement, hfunctions s hs]
  rw [class?_eq, hbody]
  simp only [Option.map_some, Option.getD_some, hdeclared]

/-- An assignment of a number to `left`, up to `stop`. -/
def assignmentTo (left : ParseTree) (stop : Nat) : ParseTree :=
  ⟨"assignment", "", true, false, false, 41, stop,
    [left,
     ⟨"=", "", false, false, false, stop - 3, stop - 2, []⟩,
     ⟨"integer", "right", true, false, false, stop - 1, stop, []⟩]⟩

/-- An assignment as a statement. -/
def initialStatement (left : ParseTree) (stop : Nat) : ParseTree :=
  ⟨"expression_statement", "", true, false, false, 41, stop, [assignmentTo left stop]⟩

/-- A class whose initialiser is one assignment. -/
def initialising (left : ParseTree) (stop : Nat) : ParseTree :=
  ⟨"module", "", true, false, false, 0, stop + 1,
    [⟨"class_definition", "", true, false, false, 0, stop,
      [⟨"class", "", false, false, false, 0, 5, []⟩,
       ⟨"identifier", "name", true, false, false, 6, 7, []⟩,
       ⟨":", "", false, false, false, 7, 8, []⟩,
       ⟨"block", "body", true, false, false, 13, stop,
        [⟨"function_definition", "", true, false, false, 13, stop,
          [⟨"def", "", false, false, false, 13, 16, []⟩,
           ⟨"identifier", "name", true, false, false, 17, 25, []⟩,
           ⟨"parameters", "parameters", true, false, false, 25, 31,
            [⟨"(", "", false, false, false, 25, 26, []⟩,
             ⟨"identifier", "", true, false, false, 26, 30, []⟩,
             ⟨")", "", false, false, false, 30, 31, []⟩]⟩,
           ⟨":", "", false, false, false, 31, 32, []⟩,
           ⟨"block", "body", true, false, false, 41, stop,
            [initialStatement left stop]⟩]⟩]⟩]⟩]⟩

/-- The expression `self.x` with a role. -/
def selfX (role : String) : ParseTree :=
  ⟨"attribute", role, true, false, false, 41, 47,
    [⟨"identifier", "object", true, false, false, 41, 45, []⟩,
     ⟨".", "", false, false, false, 45, 46, []⟩,
     ⟨"identifier", "attribute", true, false, false, 46, 47, []⟩]⟩

/-- The expression `self.x[0]` on the left of an assignment. -/
def selfXAtZero : ParseTree :=
  ⟨"subscript", "left", true, false, false, 41, 50,
    [selfX "value",
     ⟨"[", "", false, false, false, 47, 48, []⟩,
     ⟨"integer", "subscript", true, false, false, 48, 49, []⟩,
     ⟨"]", "", false, false, false, 49, 50, []⟩]⟩

/-- The bytes of a class whose initialiser assigns to an attribute. -/
def attributeBytes : List UInt8 :=
  Text.encode "class A:\n    def __init__(self):\n        self.x = 1\n".toList

/-- The bytes of a class whose initialiser assigns to an item. -/
def itemBytes : List UInt8 :=
  Text.encode "class A:\n    def __init__(self):\n        self.x[0] = 1\n".toList

/-- The names of the fields of an outline. -/
def fieldNames (o : Outline) : List String :=
  o.walk.filterMap fieldName?

theorem exists_field_of_mem_fieldNames {o : Outline} {name : String} (h : name ∈ fieldNames o) :
    ∃ field, field.name = name ∧ .leaf (.field field) ∈ o.walk := by
  obtain ⟨node, hnode, hname⟩ := List.mem_filterMap.mp h
  unfold fieldName? at hname
  split at hname
  · exact ⟨_, Option.some.inj hname, hnode⟩
  · cases hname

theorem fieldNames_attribute :
    fieldNames (Grammar.python.outline "test.py" attributeBytes
      (initialising (selfX "left") 51)) = ["x"] := by
  rw [fieldNames, Outline.walk, Node.walk_eq_preorderAll, Grammar.outline, Grammar.nodes,
    outline_of_class _ rfl rfl, class?_of_functions _ _ rfl (by decide +kernel)]
  decide +kernel

theorem fieldNames_item :
    fieldNames (Grammar.python.outline "test.py" itemBytes
      (initialising selfXAtZero 54)) = ["x[0]"] := by
  rw [fieldNames, Outline.walk, Node.walk_eq_preorderAll, Grammar.outline, Grammar.nodes,
    outline_of_class _ rfl rfl, class?_of_functions _ _ rfl (by decide +kernel)]
  decide +kernel

theorem assignsTo_initialStatement {left : ParseTree} (hrole : left.role = "left") (stop : Nat) :
    AssignsTo (initialStatement left stop) (assignmentTo left stop) left := by
  refine ⟨rfl, rfl, rfl, ?_⟩
  simp [ParseTree.child?, assignmentTo, hrole]

theorem attribute_of_selfTarget {left : ParseTree}
    (h : SelfTarget (Text.decodeLossy attributeBytes) (initialising (selfX "left") 51) left) :
    left.kind = "attribute" := by
  obtain ⟨t, assignment, name, ht, hassigns, -⟩ := h
  have hsides : ∀ a ∈ (initialising (selfX "left") 51).preorder, a.kind = "assignment" →
      (a.child? "left").map ParseTree.kind = some "attribute" := by
    decide
  have hleft := hsides assignment (hassigns.mem_preorder ht.mem_preorder) hassigns.kind
  rw [hassigns.target] at hleft
  exact Option.some.inj hleft

theorem outline_fields_declared_attribute :
    (∀ left, SelfTarget (Text.decodeLossy attributeBytes) (initialising (selfX "left") 51) left →
      left.kind = "attribute") ∧
    (∃ field, field.name = "x" ∧ .leaf (.field field) ∈
        (Grammar.python.outline "test.py" attributeBytes (initialising (selfX "left") 51)).walk ∧
      Declared (Text.decodeLossy attributeBytes) (initialising (selfX "left") 51)
        (fun left => left.kind = "attribute") field) ∧
    AssignsTo (initialStatement (selfX "left") 51) (assignmentTo (selfX "left") 51)
      (selfX "left") ∧
    statement (Text.decodeLossy attributeBytes) .module (initialStatement (selfX "left") 51) =
      [] := by
  obtain ⟨-, hother, hattribute⟩ := outline_fields_declared "test.py" attributeBytes
    (initialising (selfX "left") 51)
  have hassigns : AssignsTo (initialStatement (selfX "left") 51) _ _ :=
    assignsTo_initialStatement rfl 51
  obtain ⟨field, hname, hfield⟩ := exists_field_of_mem_fieldNames
    (fieldNames_attribute ▸ List.mem_singleton.mpr rfl)
  refine ⟨fun left => attribute_of_selfTarget, ⟨field, hname, hfield, ?_⟩, hassigns, ?_⟩
  · exact (hattribute fun left => attribute_of_selfTarget).1 field hfield
  · exact hother .module _ _ _ hassigns (by decide)

/-- An assignment to an item of an attribute declares a field. -/
theorem item_declares_field :
    ¬ ∀ (path : String) (bytes : List UInt8) (root : ParseTree) (field : Field),
      .leaf (.field field) ∈ (Grammar.python.outline path bytes root).walk →
      Declared (Text.decodeLossy bytes) root (fun left => left.kind = "attribute") field := by
  intro hall
  obtain ⟨field, -, hfield⟩ := exists_field_of_mem_fieldNames
    (fieldNames_item ▸ List.mem_singleton.mpr rfl)
  obtain ⟨assignment, hin, hkind, left, hleft, hsort⟩ :=
    (hall _ _ _ field hfield).exists_assignment
  have hsides : ∀ a ∈ (initialising selfXAtZero 54).preorder, a.kind = "assignment" →
      (a.child? "left").map ParseTree.kind = some "subscript" := by
    decide
  have hsubscript := hsides assignment hin hkind
  rw [hleft] at hsubscript
  rw [Option.some.inj hsubscript] at hsort
  exact absurd hsort (by decide)

end Python

end Precis
