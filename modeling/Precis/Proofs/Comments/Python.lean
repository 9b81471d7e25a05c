import Precis.Proofs.Comments.Alike

/-! # Comments in Python sources -/

namespace Precis.Python

open Node ParseTree

/-- The children of a node that are read whatever they are: all type parameters, the first in a
list of parameters, in a statement and in a parameter with a type or a star, and the very first of a
function, which may be a keyword. -/
def heeded (t : ParseTree) : List ParseTree :=
  (if t.role = "type_parameters" then t.parts else []) ++
  (if t.role = "parameters" ∨ t.kind = "expression_statement" ∨ t.kind = "typed_parameter" ∨
      t.kind = "list_splat_pattern" ∨ t.kind = "dictionary_splat_pattern" then t.parts.take 1
    else []) ++
  (if t.kind = "function_definition" then t.children.take 1 else [])

variable {source : List Char} {t : ParseTree}

theorem decoratorTexts_unremarked (source : List Char) (t : ParseTree) :
    decoratorTexts source t.unremarked = decoratorTexts source t := by
  rw [decoratorTexts, children_unremarked, decoratorTexts]
  refine map_filter_unremarkedAll (fun c => by rw [kind_unremarked]) ?_ ?_
  · exact fun c _ => of_isRemark (P := fun kind => (kind == "decorator") = false) (by decide)
  · exact fun c _ => by rw [text_unremarked]

section Parts

variable (h : t.Throughout (Discreet isComment heeded))

include h

/-! ## Imports -/

theorem importedName_unremarked : importedName source t.unremarked = importedName source t := by
  rw [importedName, kind_unremarked, h.here.textOf?_unremarked source (by decide),
    h.here.textOf?_unremarked source (by decide), text_unremarked, importedName]

theorem importedNames_unremarked :
    (t.unremarked.childrenOf "name").map (importedName source) =
      (t.childrenOf "name").map (importedName source) := by
  rw [h.here.childrenOf_unremarked (by decide), List.map_map]
  refine List.map_congr_left ?_
  intro name hname
  exact importedName_unremarked (h.child (List.mem_filter.mp hname).1)

theorem moduleImports_unremarked : moduleImports source t.unremarked = moduleImports source t := by
  rw [moduleImports, h.here.childrenOf_unremarked (by decide), List.map_map, location_unremarked,
    moduleImports]
  refine List.map_congr_left ?_
  intro name hname
  rw [Function.comp, importedName_unremarked (h.child (List.mem_filter.mp hname).1)]

theorem namesImport_unremarked : namesImport source t.unremarked = namesImport source t := by
  rw [namesImport, kind_unremarked, h.here.textOf?_unremarked source (by decide),
    importedNames_unremarked h, firstOfKind?_unremarked t rfl, location_unremarked, namesImport]
  cases t.firstOfKind? "wildcard_import" <;> rfl

/-! ## Parameters -/

theorem typeParameters_unremarked :
    typeParameters source t.unremarked = typeParameters source t := by
  rw [typeParameters, h.here.child?_unremarked (by decide), typeParameters]
  cases hlist : t.child? "type_parameters" with
  | none => rfl
  | some list =>
      have hparts : ∀ c ∈ list.parts, c.isRemark = false := by
        intro c hc
        exact (h.child? hlist).here.unheeded c (by simp [heeded, role_of_child? hlist, hc])
      simp only [Option.map_some, parts_unremarked, unremarkedAll_eq_map hparts, List.map_map]
      refine List.map_congr_left ?_
      intro c _
      simp only [Function.comp, text_unremarked]

theorem typeOf?_unremarked : typeOf? source t.unremarked = typeOf? source t := by
  rw [typeOf?, h.here.textOf?_unremarked source (by decide), typeOf?]

/-- The first part of a node stays the first if it is heeded. -/
theorem parts_unremarked_of_heeded (hheeded : ∀ c ∈ t.parts.take 1, c ∈ heeded t) :
    t.unremarked.parts = [] ∧ t.parts = [] ∨
      ∃ first rest, t.parts = first :: rest ∧
        t.unremarked.parts = first.unremarked :: unremarkedAll rest := by
  rw [parts_unremarked]
  cases hparts : t.parts with
  | nil => exact .inl ⟨rfl, rfl⟩
  | cons first rest =>
      have hfirst := h.here.unheeded first (hheeded first (by simp [hparts]))
      exact .inr ⟨first, rest, rfl, unremarkedAll_cons hfirst⟩

theorem collector_unremarked : collector source t.unremarked = collector source t := by
  rw [collector, kind_unremarked, text_unremarked, collector]
  by_cases hkind : t.kind = "list_splat_pattern" ∨ t.kind = "dictionary_splat_pattern"
  · have hheeded : ∀ c ∈ t.parts.take 1, c ∈ heeded t := by
      intro c hc
      simp [heeded, hkind, hc]
    rw [if_pos hkind, if_pos hkind]
    obtain ⟨hnil', hnil⟩ | ⟨first, rest, hcons, hcons'⟩ := parts_unremarked_of_heeded h hheeded
    · rw [hnil', hnil]
    · rw [hcons', hcons]
      simp only [text_unremarked]
  · rw [if_neg hkind, if_neg hkind]

theorem parameter?_unremarked : parameter? source t.unremarked = parameter? source t := by
  rw [parameter?, kind_unremarked, text_unremarked, typeOf?_unremarked h,
    h.here.textOf?_unremarked source (by decide), h.here.textOf?_unremarked source (by decide),
    collector_unremarked h, parameter?]
  by_cases htyped : t.kind = "typed_parameter"
  · have hheeded : ∀ c ∈ t.parts.take 1, c ∈ heeded t := by
      intro c hc
      simp [heeded, htyped, hc]
    rw [if_pos htyped, if_pos htyped]
    obtain ⟨hnil', hnil⟩ | ⟨first, rest, hcons, hcons'⟩ := parts_unremarked_of_heeded h hheeded
    · rw [hnil', hnil]
    · have hfirst := @collector_unremarked source first (h.part (hcons ▸ List.mem_cons_self))
      rw [hcons', hcons]
      simp only [hfirst]
  · rw [if_neg htyped, if_neg htyped]

theorem parameters_unremarked (scope : Scope) :
    parameters source scope t.unremarked = parameters source scope t := by
  rw [parameters, h.here.child?_unremarked (by decide), parameters]
  cases hlist : t.child? "parameters" with
  | none => rfl
  | some list =>
      have hbelow := h.child? hlist
      have hheeded : ∀ c ∈ list.parts.take 1, c ∈ heeded list := by
        intro c hc
        simp [heeded, role_of_child? hlist, hc]
      have hrest {rest : List ParseTree} (hrest : ∀ c ∈ rest, c ∈ list.parts) :
          (unremarkedAll rest).filterMap (parameter? source) =
            rest.filterMap (parameter? source) := by
        refine filterMap_unremarkedAll ?_ ?_
        · intro c _ hremark
          rcases isRemark_iff.mp hremark with hkind | hkind | hkind <;> simp [parameter?, hkind]
        · intro c hc _
          exact parameter?_unremarked (hbelow.part (hrest c hc))
      simp only [Option.map_some]
      obtain ⟨hnil', hnil⟩ | ⟨first, rest, hcons, hcons'⟩ :=
        parts_unremarked_of_heeded hbelow hheeded
      · rw [hnil', hnil]
      · have hparts : ∀ c ∈ first :: rest, c ∈ list.parts := fun c hc => hcons ▸ hc
        rw [hcons', hcons]
        simp only [parameter?_unremarked (hbelow.part (hparts first List.mem_cons_self)),
          hrest fun c hc => hparts c (List.mem_cons_of_mem first hc)]

/-! ## Functions and classes -/

theorem functionModifiers_unremarked (decorators : List (List Char))
    (hkind : t.kind = "function_definition") :
    functionModifiers decorators t.unremarked = functionModifiers decorators t := by
  rw [functionModifiers, children_unremarked, functionModifiers]
  cases hchildren : t.children with
  | nil => rfl
  | cons first rest =>
      have hfirst := h.here.unheeded first (by simp [heeded, hkind, hchildren])
      rw [unremarkedAll_cons hfirst]
      simp only [kind_unremarked]

/-- A function differs in its docstring alone. -/
theorem function?_unmoved (scope : Scope) (decorators : List (List Char))
    (hkind : t.kind = "function_definition") :
    Alike (function? source scope decorators t.unremarked).toList
      (function? source scope decorators t).toList := by
  rw [function?, function?, h.here.textOf?_unremarked source (by decide),
    h.here.textOf?_unremarked source (by decide), h.here.textOf?_unremarked source (by decide),
    functionModifiers_unremarked h decorators hkind, typeParameters_unremarked h,
    parameters_unremarked h, location_unremarked]
  cases t.textOf? "name" source with
  | none => rfl
  | some name =>
      refine alike_leaf ?_
      simp only [Selection.trimLeaf, Selection.trimDoc_silent]

theorem baseParts_unremarked : baseParts t.unremarked = unremarkedAll (baseParts t) := by
  rw [baseParts, h.here.child?_unremarked (by decide), baseParts]
  cases t.child? "superclasses" with
  | none => rfl
  | some list => exact parts_unremarked list

theorem mem_baseParts {base : ParseTree} (hbase : base ∈ baseParts t) :
    base.Throughout (Discreet isComment heeded) ∧
      (base.isRemark = true → base.kind = "comment") := by
  rw [baseParts] at hbase
  cases hlist : t.child? "superclasses" with
  | none => simp [hlist] at hbase
  | some list =>
      have hpart : base ∈ list.parts := by simpa [hlist] using hbase
      refine ⟨(h.child? hlist).part hpart, ?_⟩
      intro hremark
      exact eq_of_beq ((h.child? hlist).here.own base (mem_of_mem_parts hpart) hremark)

theorem makesAbstract_unremarked : makesAbstract source t.unremarked = makesAbstract source t := by
  rw [makesAbstract, kind_unremarked, h.here.textOf?_unremarked source (by decide),
    text_unremarked, makesAbstract]

theorem classModifiers_unremarked (decorators : List (List Char)) :
    classModifiers source decorators t.unremarked = classModifiers source decorators t := by
  have habstract : (baseParts t.unremarked).any (makesAbstract source) =
      (baseParts t).any (makesAbstract source) := by
    rw [baseParts_unremarked h]
    refine any_unremarkedAll ?_ ?_
    · intro base hbase hremark
      simp [makesAbstract, (mem_baseParts h hbase).2 hremark]
    · exact fun base hbase => makesAbstract_unremarked (mem_baseParts h hbase).1
  rw [classModifiers, habstract, classModifiers]

theorem bases_unremarked :
    (((baseParts t.unremarked).filter isBase).map fun base => TypeExpr.parse (base.text source)) =
      ((baseParts t).filter isBase).map fun base => TypeExpr.parse (base.text source) := by
  rw [baseParts_unremarked h]
  refine map_filter_unremarkedAll (fun c => by rw [isBase, kind_unremarked, isBase]) ?_ ?_
  · intro base hbase hremark
    simp [isBase, (mem_baseParts h hbase).2 hremark]
  · exact fun base _ => by rw [text_unremarked]

/-- A class differs in its docstring, apart from its members. -/
theorem classHead?_unmoved (decorators : List (List Char)) {xs ys : List Node}
    (hinside : Alike xs ys) :
    Alike ((classHead? source decorators t.unremarked).map fun head =>
        .branch (.type head) xs).toList
      ((classHead? source decorators t).map fun head => .branch (.type head) ys).toList := by
  rw [classHead?, classHead?, h.here.textOf?_unremarked source (by decide),
    classModifiers_unremarked h, typeParameters_unremarked h, bases_unremarked h,
    location_unremarked]
  cases t.textOf? "name" source with
  | none => rfl
  | some name =>
      refine alike_branch ?_ hinside
      simp only [Selection.trimHead, Selection.trimDoc_silent]

/-! ## Fields -/

theorem assignment?_unremarked (hkind : t.kind = "expression_statement") :
    assignment? t.unremarked = (assignment? t).map unremarked := by
  have hheeded : ∀ c ∈ t.parts.take 1, c ∈ heeded t := by
    intro c hc
    simp [heeded, hkind, hc]
  rw [assignment?, assignment?]
  obtain ⟨hnil', hnil⟩ | ⟨first, rest, hcons, hcons'⟩ := parts_unremarked_of_heeded h hheeded
  · rw [hnil', hnil]
    rfl
  · rw [hcons', hcons]
    simp only [kind_unremarked]
    split_ifs <;> rfl

omit h in
theorem assignedField_unremarked {assignment : ParseTree}
    (hassignment : assignment.Throughout (Discreet isComment heeded)) (name : List Char) :
    assignedField source t.unremarked assignment.unremarked name =
      assignedField source t assignment name := by
  rw [assignedField, typeOf?_unremarked hassignment,
    hassignment.here.textOf?_unremarked source (by decide), location_unremarked, assignedField]

/-- What is read from the target of an assignment does not change. -/
theorem bind_assignment?_unremarked {α : Type} {f g : ParseTree → ParseTree → Option α}
    (hkind : t.kind = "expression_statement")
    (hfg : ∀ assignment left, assignment.Throughout (Discreet isComment heeded) →
      f assignment.unremarked left.unremarked = g assignment left) :
    ((assignment? t.unremarked).bind fun assignment =>
        (assignment.child? "left").bind (f assignment)) =
      (assignment? t).bind fun assignment => (assignment.child? "left").bind (g assignment) := by
  rw [assignment?_unremarked h hkind]
  cases hassignment : assignment? t with
  | none => rfl
  | some assignment =>
      have hbelow := h.part (mem_of_assignment? hassignment)
      have hleft := hbelow.here.child?_unremarked (by decide : "left" ≠ "")
      simp only [Option.map_some, Option.bind_some, hleft]
      cases assignment.child? "left" with
      | none => rfl
      | some left => exact hfg assignment left hbelow

theorem field?_unremarked (hkind : t.kind = "expression_statement") :
    field? source t.unremarked = field? source t := by
  simp only [field?, Option.bind_eq_bind]
  refine bind_assignment?_unremarked h hkind ?_
  intro assignment left hbelow
  simp only [kind_unremarked, text_unremarked, assignedField_unremarked hbelow]

theorem selfField?_unremarked : selfField? source t.unremarked = selfField? source t := by
  simp only [selfField?, kind_unremarked, Option.bind_eq_bind]
  split_ifs with hkind
  · refine bind_assignment?_unremarked h hkind ?_
    intro assignment left hbelow
    simp only [text_unremarked, assignedField_unremarked hbelow]
  · rfl

end Parts

/-! ## Instance fields -/

theorem fieldNames_remnants (nodes : List Node) :
    (Selection.silent.remnants nodes).filterMap fieldName? = nodes.filterMap fieldName? := by
  induction nodes with
  | nil => rfl
  | cons node rest ih =>
      have hnode : (Selection.silent.remnant node).toList.filterMap fieldName? =
          [node].filterMap fieldName? := by
        rcases node with _ | (_ | _ | field | _ | _ | _)
        case leaf.field =>
          have hkeep : Selection.silent.keepsLeaf (.field field) = true :=
            Selection.admits_silent field.visibility
          rw [Selection.remnant, if_pos hkeep]
          rfl
        all_goals
          rw [Selection.remnant]
          split_ifs <;> rfl
      rw [Selection.remnants, List.filterMap_append, ih, hnode, ← List.filterMap_append,
        List.singleton_append]

/-- Names of fields do not depend on comments. -/
theorem fieldNames_of_alike {xs ys : List Node} (h : Alike xs ys) :
    xs.filterMap fieldName? = ys.filterMap fieldName? := by
  rw [← fieldNames_remnants xs, h, fieldNames_remnants ys]

section Initialiser

variable (h : t.Throughout (Discreet isComment heeded))

include h

theorem undecorated_unremarked : undecorated t.unremarked = (undecorated t).map unremarked := by
  rw [undecorated, kind_unremarked, undecorated]
  split_ifs
  · exact h.here.child?_unremarked (by decide)
  · rfl

theorem throughout_of_undecorated {definition : ParseTree}
    (hdefinition : undecorated t = some definition) :
    definition.Throughout (Discreet isComment heeded) := by
  rw [undecorated] at hdefinition
  split_ifs at hdefinition
  · exact h.child? hdefinition
  · exact Option.some.inj hdefinition ▸ h

theorem isInitialiser_unremarked :
    isInitialiser source t.unremarked = isInitialiser source t := by
  rw [isInitialiser, kind_unremarked, h.here.textOf?_unremarked source (by decide), isInitialiser]

theorem initialiser?_unremarked :
    initialiser? source t.unremarked = (initialiser? source t).map unremarked := by
  rw [initialiser?_eq, initialiser?_eq, parts_unremarked, find?_unremarkedAll]
  · cases hfound : t.parts.find? fun part => (undecorated part).any (isInitialiser source) with
    | none => rfl
    | some part => exact undecorated_unremarked (h.part (List.mem_of_find?_eq_some hfound))
  · intro part hpart
    rw [undecorated_unremarked (h.part hpart)]
    cases hdefinition : undecorated part with
    | none => rfl
    | some definition =>
        exact isInitialiser_unremarked (throughout_of_undecorated (h.part hpart) hdefinition)
  · intro part _ hremark
    rcases isRemark_iff.mp hremark with hkind | hkind | hkind <;>
      simp [undecorated, isInitialiser, hkind]

theorem throughout_of_initialiser? {definition : ParseTree}
    (hdefinition : initialiser? source t = some definition) :
    definition.Throughout (Discreet isComment heeded) := by
  rw [initialiser?_eq] at hdefinition
  obtain ⟨part, hfound, hpart⟩ := Option.bind_eq_some_iff.mp hdefinition
  exact throughout_of_undecorated (h.part (List.mem_of_find?_eq_some hfound)) hpart

theorem instanceFields_unremarked {members members' : List Node}
    (hmembers : Alike members' members) :
    instanceFields source t.unremarked members' = instanceFields source t members := by
  rw [instanceFields, initialiser?_unremarked h, fieldNames_of_alike hmembers, instanceFields]
  cases hdefinition : initialiser? source t with
  | none => rfl
  | some definition =>
      have hbelow := throughout_of_initialiser? h hdefinition
      simp only [Option.map_some, Option.bind_some,
        hbelow.here.child?_unremarked (by decide : "body" ≠ "")]
      cases hbody : definition.child? "body" with
      | none => rfl
      | some block =>
          have hfields : block.unremarked.parts.filterMap (selfField? source) =
              block.parts.filterMap (selfField? source) := by
            rw [parts_unremarked]
            refine filterMap_unremarkedAll ?_ ?_
            · intro c _ hremark
              rcases isRemark_iff.mp hremark with hkind | hkind | hkind <;>
                simp [selfField?, hkind]
            · exact fun c hc _ => selfField?_unremarked ((hbelow.child? hbody).part hc)
          simp only [Option.map_some, hfields]

end Initialiser

/-! ## Statements -/

theorem alike_statement_of_isRemark (scope : Scope) (ht : t.isRemark = true) :
    Alike (statement source scope t) [] := by
  rcases isRemark_iff.mp ht with hkind | hkind | hkind <;>
    simp only [statement_eq, plainStatement, hkind, String.reduceEq, if_false, if_true, or_self]
  · exact alike_comment _
  · rfl
  · rfl

/-- What a node gives differs in comments alone, as a statement, as the definition of a class or as
the block of a class or module. -/
structure Unmoved (source : List Char) (t : ParseTree) : Prop where
  statement : ∀ scope, Alike (statement source scope t.unremarked) (statement source scope t)
  class? : ∀ decorators, Alike (class? source decorators t.unremarked).toList
    (class? source decorators t).toList
  block : ∀ scope, Alike (t.unremarked.parts.flatMap (Python.statement source scope))
    (t.parts.flatMap (Python.statement source scope))

theorem class?_unmoved (h : t.Throughout (Discreet isComment heeded))
    (ih : ∀ c ∈ t.children, Unmoved source c) (decorators : List (List Char)) :
    Alike (class? source decorators t.unremarked).toList (class? source decorators t).toList := by
  rw [class?_eq, class?_eq, h.here.child?_unremarked (by decide)]
  refine classHead?_unmoved h decorators ?_
  cases hbody : t.child? "body" with
  | none => rfl
  | some body =>
      have hblock := (ih body (mem_of_child? hbody)).block .classBody
      simp only [Option.map_some, Option.getD_some, flatMap_blockStatements]
      rw [instanceFields_unremarked (h.child? hbody) hblock]
      exact hblock.append (.refl _)

theorem plainStatement_unmoved (h : t.Throughout (Discreet isComment heeded)) (scope : Scope) :
    Alike (plainStatement source scope t.unremarked) (plainStatement source scope t) := by
  rw [plainStatement, plainStatement, kind_unremarked, moduleImports_unremarked h,
    namesImport_unremarked h, text_unremarked, location_unremarked]
  split_ifs with _ _ hfunction hexpression
  · rfl
  · rfl
  · exact function?_unmoved h scope [] hfunction
  · rw [field?_unremarked h hexpression]
  · rfl
  · rfl

theorem statement_unmoved (h : t.Throughout (Discreet isComment heeded))
    (ih : ∀ c ∈ t.children, Unmoved source c) (scope : Scope) :
    Alike (statement source scope t.unremarked) (statement source scope t) := by
  rw [statement_eq, statement_eq, kind_unremarked]
  split_ifs
  · exact class?_unmoved h ih []
  · rw [h.here.child?_unremarked (by decide), decoratorTexts_unremarked]
    cases hdefinition : t.child? "definition" with
    | none => rfl
    | some definition =>
        simp only [Option.map_some, kind_unremarked]
        split_ifs with _ hfunction
        · exact (ih definition (mem_of_child? hdefinition)).class? _
        · exact function?_unmoved (h.child? hdefinition) scope _ hfunction
        · rfl
  · exact plainStatement_unmoved h scope

theorem unmoved_of_discreet (h : t.Throughout (Discreet isComment heeded)) : Unmoved source t := by
  induction h with
  | @intro t here below ih =>
      have h : t.Throughout (Discreet isComment heeded) := .intro here below
      refine ⟨statement_unmoved h ih, class?_unmoved h ih, ?_⟩
      intro scope
      rw [parts_unremarked]
      refine alike_unremarkedAll ?_ ?_
      · exact fun c _ hremark => alike_statement_of_isRemark scope hremark
      · exact fun c hc _ => (ih c (mem_of_mem_parts hc)).statement scope

/-- A module holds what its statements declare; its comments and its docstring come on top. -/
theorem alike_outline (source : List Char) (root : ParseTree) :
    Alike (outline source root) (root.parts.flatMap (statement source .module)) := by
  have hdoc : Alike ((splitDocstring source root).2.1.map fun comment =>
      Node.leaf (.comment comment)).toList [] := by
    cases (splitDocstring source root).2.1 with
    | none => rfl
    | some doc => exact alike_comment doc
  rw [← flatMap_splitDocstring, ← List.append_nil (List.flatMap _ (splitDocstring source root).1)]
  exact ((Alike.refl _).append hdoc).append (.refl _)

theorem outline_unmoved (h : t.Throughout (Discreet isComment heeded)) :
    Alike (outline source t.unremarked) (outline source t) :=
  (alike_outline source _).trans
    (((unmoved_of_discreet h).block .module).trans (alike_outline source t).symm)

end Precis.Python
