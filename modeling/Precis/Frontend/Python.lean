import Precis.Node
import Precis.ParseTree
import Precis.Frontend.PythonAnnotation
import Precis.Frontend.PythonDocstring

/-!
# Outlines of Python sources

Imports, classes, functions and assignments become nodes; other statements leave none. A name that
starts with an underscore is private unless it has two of them at both ends. The docstring of a
class or function is its doc comment, the docstring of a module stands by itself. The fields of a
class are those assigned in its body, followed by those first assigned to `self` at the top level of
its initialiser.
-/

namespace Precis.Python

open Text

/-- Where a statement stands. -/
inductive Scope where
  | module
  | classBody
deriving DecidableEq

/-- The visibility that a name expresses. -/
def visibilityOf (name : List Char) : Visibility :=
  let mark := ['_', '_']
  if startsWith ['_'] name && !(4 < byteLength name && startsWith mark name && endsWith mark name)
  then .priv else .pub

/-! ## Imports -/

/-- A name in an import, which may be given another name. -/
def importedName (source : List Char) (t : ParseTree) : ImportedName :=
  if t.kind = "aliased_import" then
    { name := String.ofList ((t.textOf? "name" source).getD [])
      localName := (t.textOf? "alias" source).map String.ofList }
  else { name := String.ofList (t.text source) }

/-- The imports of modules: one for each module, which lists the module itself if it is given
another name. -/
def moduleImports (source : List Char) (t : ParseTree) : List Node :=
  (t.childrenOf "name").map fun name =>
    let found := importedName source name
    .leaf (.imported
      { module := found.name
        names := if found.localName.isSome then [found] else []
        location := t.location source })

/-- The import of names from a module. -/
def namesImport (source : List Char) (t : ParseTree) : Node :=
  let module :=
    if t.kind = "future_import_statement" then "__future__"
    else ((t.textOf? "module_name" source).map String.ofList).getD "."
  let names := (t.childrenOf "name").map (importedName source)
  let wildcard := (t.firstOfKind? "wildcard_import").toList.map fun _ => ImportedName.wildcard
  .leaf (.imported { module := module, names := names ++ wildcard, location := t.location source })

/-! ## Docstrings -/

/-- The docstring that a statement is: a string and nothing else. -/
def docstring? (source : List Char) (t : ParseTree) : Option Comment :=
  match t.parts with
  | [part] =>
    if t.kind = "expression_statement" ∧ part.kind = "string" then
      some ⟨String.ofList (cleanDocstring (part.text source)), .doc, t.location source⟩
    else none
  | _ => none

/-- Whether a statement is a comment. -/
def isComment (t : ParseTree) : Bool :=
  t.kind == "comment"

/-- The statements of a block, cut in two where its docstring stands: it can only be the first
statement that is no comment. -/
def splitDocstring (source : List Char) (block : ParseTree) :
    List ParseTree × Option Comment × List ParseTree :=
  let before := block.parts.takeWhile isComment
  match block.parts.dropWhile isComment with
  | [] => (before, none, [])
  | first :: rest =>
    match docstring? source first with
    | some doc => (before, some doc, rest)
    | none => (before, none, first :: rest)

/-- The docstring of a block. -/
def blockDoc? (source : List Char) (block : ParseTree) : Option Comment :=
  (splitDocstring source block).2.1

/-- The statements of a block other than its docstring. -/
def blockStatements (source : List Char) (block : ParseTree) : List ParseTree :=
  let (before, _, after) := splitDocstring source block
  before ++ after

theorem mem_parts_of_mem_splitDocstring {source : List Char} {block t : ParseTree}
    (h : t ∈ (splitDocstring source block).1 ∨ t ∈ (splitDocstring source block).2.2) :
    t ∈ block.parts := by
  unfold splitDocstring at h
  dsimp only at h
  split at h
  · rcases h with h | h
    · exact (List.takeWhile_sublist _).mem h
    · simp at h
  · rename_i first rest hdrop
    have hafter : ∀ s ∈ first :: rest, s ∈ block.parts := by
      intro s hs
      rw [← hdrop] at hs
      exact (List.dropWhile_sublist _).mem hs
    split at h
    · rcases h with h | h
      · exact (List.takeWhile_sublist _).mem h
      · exact hafter t (List.mem_cons_of_mem _ h)
    · rcases h with h | h
      · exact (List.takeWhile_sublist _).mem h
      · exact hafter t h

theorem size_lt_of_mem_blockStatements {source : List Char} {block t : ParseTree}
    (h : t ∈ blockStatements source block) : t.size < block.size :=
  ParseTree.size_lt_of_mem_parts
    (mem_parts_of_mem_splitDocstring (List.mem_append.1 h))

/-! ## Declarations -/

/-- The texts of the decorators of a definition. -/
def decoratorTexts (source : List Char) (t : ParseTree) : List (List Char) :=
  (t.children.filter fun c => c.kind == "decorator").map fun c => c.text source

/-- The name of a decorator without its module and its arguments. -/
def decoratorName (cs : List Char) : String :=
  let text := trim (cs.dropWhile (· == '@'))
  String.ofList (trim (afterLast ['.'] (text.takeWhile (· != '('))))

/-- The parameters of a generic definition. -/
def typeParameters (source : List Char) (t : ParseTree) : List TypeParameter :=
  match t.child? "type_parameters" with
  | none => []
  | some list =>
    list.parts.map fun part =>
      let text := part.text source
      match splitFirst? [':'] text with
      | some (name, bound) =>
        { name := String.ofList (trim name), bounds := [TypeExpr.parse bound] }
      | none => { name := String.ofList (trim text) }

/-- The type of the child with the role `type`. -/
def typeOf? (source : List Char) (t : ParseTree) : Option TypeExpr :=
  (t.textOf? "type" source).map annotation

/-- A parameter that may collect several arguments. -/
def collector (source : List Char) (t : ParseTree) : Parameter :=
  if t.kind = "list_splat_pattern" ∨ t.kind = "dictionary_splat_pattern" then
    let name :=
      match t.parts with
      | part :: _ => part.text source
      | [] => (t.text source).dropWhile (· == '*')
    { name := String.ofList name, variadic := true }
  else { name := String.ofList (t.text source) }

/-- A parameter of a function; `none` for what is no parameter, such as a lone star. -/
def parameter? (source : List Char) (t : ParseTree) : Option Parameter :=
  if t.kind = "identifier" then some { name := String.ofList (t.text source) }
  else if t.kind = "typed_parameter" then
    match t.parts with
    | part :: _ => some { collector source part with type := typeOf? source t }
    | [] => none
  else if t.kind = "default_parameter" ∨ t.kind = "typed_default_parameter" then
    (t.textOf? "name" source).map fun name =>
      let p : Parameter := { name := String.ofList name, type := typeOf? source t }
      match t.textOf? "value" source with
      | some value => p.withDefault (String.ofList value)
      | none => p
  else if t.kind = "list_splat_pattern" ∨ t.kind = "dictionary_splat_pattern" then
    some (collector source t)
  else none

/-- Whether a parameter stands for the object or class that a method belongs to. -/
def isReceiver (p : Parameter) : Bool :=
  p.name == "self" || p.name == "cls"

/-- The parameters of a function. A method does not list the receiver, if that comes first. -/
def parameters (source : List Char) (scope : Scope) (t : ParseTree) : List Parameter :=
  match (t.child? "parameters").map ParseTree.parts with
  | none | some [] => []
  | some (first :: rest) =>
    ((parameter? source first).filter fun p => !(scope == .classBody && isReceiver p)).toList ++
      rest.filterMap (parameter? source)

/-- The modifier that a decorator of a function expresses. -/
def decoratorModifier? (name : String) : Option Modifier :=
  if name = "staticmethod" then some .static
  else if name = "abstractmethod" then some .abstract
  else if name = "override" then some .override
  else if name = "final" then some .final
  else none

/-- The modifiers of a function. -/
def functionModifiers (decorators : List (List Char)) (t : ParseTree) : List Modifier :=
  (match t.children with
    | first :: _ => if first.kind = "async" then [.async] else []
    | [] => []) ++
  decorators.filterMap fun d => decoratorModifier? (decoratorName d)

/-- The function that a definition declares. -/
def function? (source : List Char) (scope : Scope) (decorators : List (List Char))
    (t : ParseTree) : Option Node :=
  (t.textOf? "name" source).map fun name =>
    .leaf (.function
      { name := String.ofList name
        visibility := visibilityOf name
        modifiers := .ofList (functionModifiers decorators t)
        decorators := decorators.map String.ofList
        typeParameters := typeParameters source t
        parameters := parameters source scope t
        result := (t.textOf? "return_type" source).map annotation
        body := (t.textOf? "body" source).map String.ofList
        doc := (t.child? "body").bind (blockDoc? source)
        location := t.location source })

/-- The bases that a class lists, and other arguments. -/
def baseParts (t : ParseTree) : List ParseTree :=
  ((t.child? "superclasses").map ParseTree.parts).getD []

/-- Whether a base, or the metaclass among the other arguments, makes a class abstract. -/
def makesAbstract (source : List Char) (base : ParseTree) : Bool :=
  if base.kind = "keyword_argument" then
    match base.textOf? "value" source with
    | some value => value == "ABCMeta".toList || endsWith ".ABCMeta".toList value
    | none => false
  else base.kind != "comment" &&
    (base.text source == "ABC".toList || base.text source == "abc.ABC".toList)

/-- Whether an entry in the list of bases is a base. -/
def isBase (t : ParseTree) : Bool :=
  t.kind != "keyword_argument" && t.kind != "comment"

/-- The modifiers of a class. -/
def classModifiers (source : List Char) (decorators : List (List Char)) (t : ParseTree) :
    List Modifier :=
  (if decorators.any fun d => decoratorName d == "dataclass" then [.data] else []) ++
  (if (baseParts t).any (makesAbstract source) then [.abstract] else [])

/-- What a class definition says apart from the members of the class. -/
def classHead? (source : List Char) (decorators : List (List Char)) (t : ParseTree) :
    Option TypeHead :=
  (t.textOf? "name" source).map fun name =>
    { kind := .classType
      name := String.ofList name
      visibility := visibilityOf name
      modifiers := .ofList (classModifiers source decorators t)
      decorators := decorators.map String.ofList
      typeParameters := typeParameters source t
      bases := ((baseParts t).filter isBase).map fun base => TypeExpr.parse (base.text source)
      doc := (t.child? "body").bind (blockDoc? source)
      location := t.location source }

/-! ## Fields -/

/-- The assignment that a statement is. -/
def assignment? (t : ParseTree) : Option ParseTree :=
  match t.parts with
  | first :: _ => if first.kind = "assignment" then some first else none
  | [] => none

/-- Whether a name is written as the name of a constant. -/
def isConstantName (name : List Char) : Bool :=
  1 < byteLength name &&
    name.all fun c => ('A' ≤ c && c ≤ 'Z') || ('0' ≤ c && c ≤ '9') || c == '_'

/-- The field that an assignment in the statement `t` declares under a name. -/
def assignedField (source : List Char) (t assignment : ParseTree) (name : List Char) : Field where
  name := String.ofList name
  visibility := visibilityOf name
  type := typeOf? source assignment
  value := (assignment.textOf? "right" source).map String.ofList
  location := t.location source

/-- The field that an assignment to a plain name declares. -/
def field? (source : List Char) (t : ParseTree) : Option Node := do
  let assignment ← assignment? t
  let left ← assignment.child? "left"
  if left.kind = "identifier" then
    let name := left.text source
    let field := assignedField source t assignment name
    let modifiers := if isConstantName name then field.modifiers.insert .const else field.modifiers
    some (.leaf (.field { field with modifiers := modifiers }))
  else none

/-- The field that an assignment to an attribute of `self` declares. -/
def selfField? (source : List Char) (t : ParseTree) : Option Field := do
  let assignment ← if t.kind = "expression_statement" then assignment? t else none
  let left ← assignment.child? "left"
  let name ← dropPrefix? "self.".toList (left.text source)
  if name.contains '.' then none else some (assignedField source t assignment name)

/-- The fields whose names are new, each name once. -/
def newFields : List String → List Field → List Field
  | _, [] => []
  | seen, field :: rest =>
    if seen.contains field.name then newFields seen rest
    else field :: newFields (seen ++ [field.name]) rest

/-- The name of a field. -/
def fieldName? : Node → Option String
  | .leaf (.field item) => some item.name
  | _ => none

/-- The first initialiser among the statements of a class body. -/
def initialiser? (source : List Char) (body : ParseTree) : Option ParseTree :=
  (body.parts.filterMap fun part =>
    if part.kind = "decorated_definition" then part.child? "definition" else some part).find?
      fun t => t.kind == "function_definition" &&
        t.textOf? "name" source == some "__init__".toList

/-- The fields that the initialiser of a class adds to the members of its body. -/
def instanceFields (source : List Char) (body : ParseTree) (members : List Node) : List Node :=
  match (initialiser? source body).bind fun t => t.child? "body" with
  | none => []
  | some block =>
    (newFields (members.filterMap fieldName?) (block.parts.filterMap (selfField? source))).map
      fun field => .leaf (.field field)

/-! ## Statements -/

/-- The nodes of a statement that defines no class. -/
def plainStatement (source : List Char) (scope : Scope) (t : ParseTree) : List Node :=
  if t.kind = "import_statement" then moduleImports source t
  else if t.kind = "import_from_statement" ∨ t.kind = "future_import_statement" then
    [namesImport source t]
  else if t.kind = "function_definition" then (function? source scope [] t).toList
  else if t.kind = "expression_statement" then (field? source t).toList
  else if t.kind = "comment" then
    [.leaf (.comment ⟨String.ofList (t.text source), .line, t.location source⟩)]
  else []

set_option linter.unusedVariables false in
mutual

/-- The nodes of a statement. -/
def statement (source : List Char) (scope : Scope) (t : ParseTree) : List Node :=
  if t.kind = "class_definition" then (class? source [] t).toList
  else if t.kind = "decorated_definition" then
    match hdefinition : t.child? "definition" with
    | none => []
    | some definition =>
      if definition.kind = "class_definition" then
        (class? source (decoratorTexts source t) definition).toList
      else if definition.kind = "function_definition" then
        (function? source scope (decoratorTexts source t) definition).toList
      else []
  else plainStatement source scope t
termination_by (t.size, 1)
decreasing_by
  · exact Prod.Lex.right _ (by decide)
  · exact Prod.Lex.left _ _ (ParseTree.size_lt_of_child? hdefinition)

/-- The class that a definition declares, with its members. -/
def class? (source : List Char) (decorators : List (List Char)) (t : ParseTree) : Option Node :=
  let members :=
    match hbody : t.child? "body" with
    | none => []
    | some body =>
      let declared := (blockStatements source body).attach.flatMap
        fun ⟨s, hs⟩ => statement source .classBody s
      declared ++ instanceFields source body declared
  (classHead? source decorators t).map fun head => .branch (.type head) members
termination_by (t.size, 0)
decreasing_by
  exact Prod.Lex.left _ _
    (Nat.lt_trans (size_lt_of_mem_blockStatements hs) (ParseTree.size_lt_of_child? hbody))

end

/-- How the nodes of a statement depend on its kind. -/
theorem statement_eq (source : List Char) (scope : Scope) (t : ParseTree) :
    statement source scope t =
      if t.kind = "class_definition" then (class? source [] t).toList
      else if t.kind = "decorated_definition" then
        match t.child? "definition" with
        | none => []
        | some definition =>
          if definition.kind = "class_definition" then
            (class? source (decoratorTexts source t) definition).toList
          else if definition.kind = "function_definition" then
            (function? source scope (decoratorTexts source t) definition).toList
          else []
      else plainStatement source scope t := by
  rw [statement]
  split
  · rfl
  · split
    · split
      · rename_i h
        rw [h]
      · rename_i h
        rw [h]
    · rfl

/-- A class holds what its statements declare, and then the fields that its methods assign. -/
theorem class?_eq (source : List Char) (decorators : List (List Char)) (t : ParseTree) :
    class? source decorators t = (classHead? source decorators t).map fun head =>
      .branch (.type head)
        (((t.child? "body").map fun body =>
          let declared := (blockStatements source body).flatMap (statement source .classBody)
          declared ++ instanceFields source body declared).getD []) := by
  rw [class?]
  dsimp only
  congr 1
  funext head
  congr 1
  split
  · rename_i h
    rw [h]
    rfl
  · rename_i body h
    rw [h]
    dsimp only [Option.map, Option.getD]
    have hdeclared : ((blockStatements source body).attach.flatMap
        fun ⟨s, _⟩ => statement source .classBody s) =
        (blockStatements source body).flatMap (statement source .classBody) := by
      conv => rhs; rw [← List.attach_map_subtype_val (blockStatements source body), List.flatMap_map]
    rw [hdeclared]

/-- The nodes of a module. -/
def outline (source : List Char) (root : ParseTree) : List Node :=
  let (before, doc, after) := splitDocstring source root
  before.flatMap (statement source .module) ++
    (doc.map fun comment => Node.leaf (.comment comment)).toList ++
    after.flatMap (statement source .module)

end Precis.Python
