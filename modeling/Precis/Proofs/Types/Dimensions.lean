import Precis.Frontend.Java
import Precis.Proofs.Types.Stability

/-! # Array dimensions of Java declarations

The dimensions of an array may stand in the type of a declaration, behind the name that it
declares, or partly here and partly there. Which type is declared only depends on how many they
are. The components of a record have no dimensions behind their names, so they are not concerned. -/

namespace Precis.Java

open Text Brackets TypeExpr

/-! ## Repeated dimensions -/

/-- The brackets of `n` array dimensions. -/
def dimensions (n : Nat) : List Char :=
  (List.replicate n ['[', ']']).flatten

theorem dimensions_succ (n : Nat) : dimensions (n + 1) = dimensions n ++ ['[', ']'] := by
  simp [dimensions, List.replicate_succ']

theorem closing_dimensions (n : Nat) : ofTypes.Closing 0 (dimensions n) := by
  induction n with
  | zero => exact .nil
  | succ n ih =>
      have hpair : ofTypes.Closing 0 ['[', ']'] := by decide
      rw [dimensions_succ]
      exact ih.append hpair

theorem count_dimensions (n : Nat) : (dimensions n).count '[' = n := by
  induction n with
  | zero => rfl
  | succ n ih => simp [dimensions_succ, ih]

theorem withDimensions_zero (t : TypeExpr) : withDimensions t (dimensions 0) = t := rfl

theorem withDimensions_succ (t : TypeExpr) (n : Nat) :
    withDimensions t (dimensions (n + 1)) = (withDimensions t (dimensions n)).array := by
  simp only [withDimensions, count_dimensions]
  rw [List.replicate_succ', List.foldl_append]
  rfl

/-! ## The element type -/

/-- A spelling of the elements of an array: not blank, and its brackets balance. -/
structure IsElement (cs : List Char) : Prop where
  visible : allBlank cs = false
  balanced : ofTypes.balanced cs = true

namespace IsElement

variable {element : List Char}

/-- An element type with dimensions is a spelling of elements again. -/
theorem append (h : IsElement element) (n : Nat) : IsElement (element ++ dimensions n) where
  visible := by
    have hvisible := h.visible
    simp only [allBlank, List.all_append, Bool.and_eq_false_iff] at hvisible ⊢
    exact .inl hvisible
  balanced := balancedFrom_iff.mpr ((balancedFrom_iff.mp h.balanced).append (closing_dimensions n))

theorem parse_array (h : IsElement element) :
    parse (element ++ ['[', ']']) = (parse element).array :=
  TypeExpr.parse_array h.visible (balancedFrom_iff.mp h.balanced)

theorem parse_succ (h : IsElement element) (n : Nat) :
    parse (element ++ dimensions (n + 1)) = (parse (element ++ dimensions n)).array := by
  rw [dimensions_succ, ← List.append_assoc, (h.append n).parse_array]

/-- Dimensions behind the name count as further ones in the type. -/
theorem withDimensions_parse (h : IsElement element) (j k : Nat) :
    withDimensions (parse (element ++ dimensions j)) (dimensions k) =
      parse (element ++ dimensions (j + k)) := by
  induction k with
  | zero => rw [withDimensions_zero, Nat.add_zero]
  | succ k ih => rw [withDimensions_succ, ih, ← Nat.add_assoc, h.parse_succ]

/-- With dimensions or without them, only `void` is no type. -/
theorem type?_eq (h : IsElement element) (hvoid : trim element ≠ "void".toList) (n : Nat) :
    type? (element ++ dimensions n) = some (parse (element ++ dimensions n)) := by
  have htext : trim (element ++ dimensions n) ≠ "void".toList := by
    cases n with
    | zero => simpa [dimensions] using hvoid
    | succ n =>
        have hbracket : isBlank ']' = false := by decide
        have hlast := trim_append_of_last (h.append n).visible ['['] hbracket
        rw [dimensions_succ, ← List.append_assoc]
        intro heq
        have hend := congrArg List.getLast? (hlast.symm.trans heq)
        simp at hend
  rw [type?, if_neg htext]

end IsElement

/-! ## Declarations -/

/-- A declaration whose type and the brackets behind its name, if there are any, spell `n`
dimensions together. -/
def Dimensioned (source element : List Char) (n : Nat) (t named : ParseTree) : Prop :=
  ∃ j k, j + k = n ∧ t.textOf? "type" source = some (element ++ dimensions j) ∧
    (named.textOf? "dimensions" source).getD [] = dimensions k

/-- The type of a field, or of what a function returns. -/
def declaredType? : Node → Option TypeExpr
  | .leaf (.field item) => item.type
  | .leaf (.function item) => item.result
  | _ => none

section

variable {source element : List Char} {t : ParseTree}

theorem Dimensioned.typeWith?_eq {n : Nat} {named : ParseTree}
    (h : Dimensioned source element n t named) (helement : IsElement element)
    (hvoid : trim element ≠ "void".toList) :
    typeWith? source t named = some (parse (element ++ dimensions n)) := by
  obtain ⟨j, k, rfl, htype, hdimensions⟩ := h
  rw [typeWith?, htype, hdimensions, Option.bind_some, helement.type?_eq hvoid, Option.map_some,
    helement.withDimensions_parse]

/-- Each declarator of a field has dimensions of its own. -/
theorem declaredType?_fieldNodes (helement : IsElement element)
    (hvoid : trim element ≠ "void".toList) (owner : Owner) {n : ParseTree → Nat}
    (h : ∀ d ∈ t.childrenOf "declarator",
      (d.child? "name").isSome ∧ Dimensioned source element (n d) t d) :
    (fieldNodes source owner t).map declaredType? =
      (t.childrenOf "declarator").map fun d => some (parse (element ++ dimensions (n d))) := by
  rw [fieldNodes, List.map_filterMap, ← List.filterMap_eq_map]
  apply List.filterMap_congr
  intro d hd
  obtain ⟨hname, hdimensioned⟩ := h d hd
  obtain ⟨name, hname⟩ := Option.isSome_iff_exists.mp hname
  simp [ParseTree.textOf?, hname, declaredType?, hdimensioned.typeWith?_eq helement hvoid]

theorem type_parameter? (helement : IsElement element) (hvoid : trim element ≠ "void".toList)
    (hkind : t.kind = "formal_parameter") (hname : (t.child? "name").isSome) {n : Nat}
    (h : Dimensioned source element n t t) :
    (parameter? source t).map Parameter.type = some (some (parse (element ++ dimensions n))) := by
  obtain ⟨name, hname⟩ := Option.isSome_iff_exists.mp hname
  simp [parameter?, hkind, ParseTree.textOf?, hname, h.typeWith?_eq helement hvoid]

theorem declaredType?_method? (helement : IsElement element)
    (hvoid : trim element ≠ "void".toList) (owner : Owner) (hname : (t.child? "name").isSome)
    {n : Nat} (h : Dimensioned source element n t t) :
    (method? source owner t).map declaredType? =
      some (some (parse (element ++ dimensions n))) := by
  obtain ⟨name, hname⟩ := Option.isSome_iff_exists.mp hname
  simp [method?, ParseTree.textOf?, hname, declaredType?, h.typeWith?_eq helement hvoid]

end

/-- What a declaration declares is an array with as many dimensions as its type and the name have
together: `int[][] m`, `int[] m[]` and `int m[][]` are fields, parameters and methods of the same
type. -/
theorem dimensions_agree {element : List Char} (helement : IsElement element) :
    (∀ j k, withDimensions (parse (element ++ dimensions j)) (dimensions k) =
      parse (element ++ dimensions (j + k))) ∧
    (trim element ≠ "void".toList → ∀ (source : List Char) (t : ParseTree),
      (∀ (owner : Owner) (n : ParseTree → Nat),
        (∀ d ∈ t.childrenOf "declarator",
          (d.child? "name").isSome ∧ Dimensioned source element (n d) t d) →
        (fieldNodes source owner t).map declaredType? =
          (t.childrenOf "declarator").map fun d => some (parse (element ++ dimensions (n d)))) ∧
      (∀ n, t.kind = "formal_parameter" → (t.child? "name").isSome →
        Dimensioned source element n t t →
        (parameter? source t).map Parameter.type = some (some (parse (element ++ dimensions n)))) ∧
      (∀ (owner : Owner) (n), (t.child? "name").isSome → Dimensioned source element n t t →
        (method? source owner t).map declaredType? =
          some (some (parse (element ++ dimensions n))))) := by
  refine ⟨helement.withDimensions_parse, ?_⟩
  intro hvoid source t
  refine ⟨?_, ?_, ?_⟩
  · intro owner n
    exact declaredType?_fieldNodes helement hvoid owner
  · intro n hkind hname h
    exact type_parameter? helement hvoid hkind hname h
  · intro owner n hname h
    exact declaredType?_method? helement hvoid owner hname h

/-- The parse tree of the parameter `int[] m[]`. -/
def matrixParameter : ParseTree :=
  ⟨"formal_parameter", "", true, false, false, 0, 9,
    [⟨"array_type", "type", true, false, false, 0, 5, []⟩,
     ⟨"identifier", "name", true, false, false, 6, 7, []⟩,
     ⟨"dimensions", "dimensions", true, false, false, 7, 9, []⟩]⟩

/-- The parse tree of the field `int[] m[];`. -/
def matrixField : ParseTree :=
  ⟨"field_declaration", "", true, false, false, 0, 10,
    [⟨"array_type", "type", true, false, false, 0, 5, []⟩,
     ⟨"variable_declarator", "declarator", true, false, false, 6, 9,
      [⟨"identifier", "name", true, false, false, 6, 7, []⟩,
       ⟨"dimensions", "dimensions", true, false, false, 7, 9, []⟩]⟩,
     ⟨";", "", false, false, false, 9, 10, []⟩]⟩

/-- The parse tree of the method `int[] m()[]`. -/
def matrixMethod : ParseTree :=
  ⟨"method_declaration", "", true, false, false, 0, 11,
    [⟨"array_type", "type", true, false, false, 0, 5, []⟩,
     ⟨"identifier", "name", true, false, false, 6, 7, []⟩,
     ⟨"formal_parameters", "parameters", true, false, false, 7, 9, []⟩,
     ⟨"dimensions", "dimensions", true, false, false, 9, 11, []⟩]⟩

theorem dimensions_agree_matrix :
    IsElement "int".toList ∧ trim "int".toList ≠ "void".toList ∧
    withDimensions (parse "int[]".toList) "[]".toList = parse "int[][]".toList ∧
    (fieldNodes "int[] m[];".toList .classType matrixField).map declaredType? =
      [some (parse "int[][]".toList)] ∧
    (parameter? "int[] m[]".toList matrixParameter).map Parameter.type =
      some (some (parse "int[][]".toList)) ∧
    (method? "int[] m()[]".toList .classType matrixMethod).map declaredType? =
      some (some (parse "int[][]".toList)) := by
  have helement : IsElement "int".toList := ⟨rfl, rfl⟩
  have hvoid : trim "int".toList ≠ "void".toList := by decide
  obtain ⟨htypes, hdeclared⟩ := dimensions_agree helement
  refine ⟨helement, hvoid, htypes 1 1, ?_, ?_, ?_⟩
  · refine (hdeclared hvoid _ matrixField).1 .classType (fun _ => 2) ?_
    intro d hd
    obtain rfl := List.mem_singleton.mp hd
    exact ⟨rfl, 1, 1, rfl, rfl, rfl⟩
  · exact (hdeclared hvoid _ matrixParameter).2.1 2 rfl rfl ⟨1, 1, rfl, rfl, rfl⟩
  · exact (hdeclared hvoid _ matrixMethod).2.2 .classType 2 rfl ⟨1, 1, rfl, rfl, rfl⟩

end Precis.Java
