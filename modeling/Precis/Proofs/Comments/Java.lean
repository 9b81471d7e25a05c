import Precis.Proofs.Comments.Alike

/-! # Comments in Java sources -/

namespace Precis.Java

open Node ParseTree

/-- The children of a node that are taken for types whatever they are: all in a list of types, in
the bound of a type parameter and behind `throws`, the first behind `extends`, and the first in a
spread parameter that is neither its modifiers nor its declarator. -/
def heeded (t : ParseTree) : List ParseTree :=
  (if t.kind = "type_list" ∨ t.kind = "type_bound" ∨ t.kind = "throws" then t.parts else []) ++
  (if t.role = "superclass" then t.parts.take 1 else []) ++
  (if t.kind = "spread_parameter" then
    (t.parts.find? fun part =>
      part.kind != "modifiers" && part.kind != "variable_declarator").toList
  else [])

variable {source : List Char} {t : ParseTree}

/-! ## Modifiers -/

theorem modifierParts_unremarked (t : ParseTree) :
    modifierParts t.unremarked = unremarkedAll (modifierParts t) := by
  rw [modifierParts, firstOfKind?_unremarked t rfl, modifierParts]
  cases t.firstOfKind? "modifiers" with
  | none => rfl
  | some modifiers => exact children_unremarked modifiers

theorem access?_unremarked (t : ParseTree) : access? t.unremarked = access? t := by
  rw [access?, modifierParts_unremarked, access?]
  congr 1
  refine filterMap_unremarkedAll ?_ fun c _ _ => by rw [kind_unremarked]
  exact fun c _ => of_isRemark (P := fun kind => visibilityOf? kind = none) (by decide)

theorem keywords_unremarked (t : ParseTree) : keywords t.unremarked = keywords t := by
  rw [keywords, modifierParts_unremarked, keywords]
  refine filterMap_unremarkedAll ?_ fun c _ _ => by rw [kind_unremarked]
  exact fun c _ => of_isRemark (P := fun kind => modifierOf? kind = none) (by decide)

theorem annotations_unremarked (source : List Char) (t : ParseTree) :
    annotations source t.unremarked = annotations source t := by
  rw [annotations, modifierParts_unremarked, annotations]
  refine map_filter_unremarkedAll (fun c => by rw [kind_unremarked]) ?_ ?_
  · exact fun c _ => of_isRemark
      (P := fun kind => (kind == "marker_annotation" || kind == "annotation") = false) (by decide)
  · exact fun c _ => by rw [text_unremarked]

theorem isDefault_unremarked (t : ParseTree) : isDefault t.unremarked = isDefault t := by
  rw [isDefault, modifierParts_unremarked, isDefault]
  refine any_unremarkedAll ?_ fun c _ => by rw [kind_unremarked]
  exact fun c _ => of_isRemark (P := fun kind => (kind == "default") = false) (by decide)

theorem visibility_unremarked (owner : Owner) (t : ParseTree) :
    visibility owner t.unremarked = visibility owner t := by
  rw [visibility, access?_unremarked, visibility]

/-! ## Parts of declarations -/

section Parts

variable (h : t.Throughout (Discreet isComment heeded))

include h

theorem typesOf_unremarked
    (hkind : t.kind = "type_list" ∨ t.kind = "type_bound" ∨ t.kind = "throws") :
    typesOf source t.unremarked = typesOf source t := by
  have hparts : ∀ c ∈ t.parts, c.isRemark = false := by
    intro c hc
    exact h.here.unheeded c (by simp [heeded, hkind, hc])
  rw [typesOf, parts_unremarked, unremarkedAll_eq_map hparts, List.map_map, typesOf]
  exact List.map_congr_left fun c _ => by rw [Function.comp, text_unremarked]

/-- Lists of types below a node do not change. -/
theorem typesOf_firstOfKind? {kind : String}
    (hkind : kind = "type_list" ∨ kind = "type_bound" ∨ kind = "throws") :
    ((t.unremarked.firstOfKind? kind).map (typesOf source)).getD [] =
      ((t.firstOfKind? kind).map (typesOf source)).getD [] := by
  have hremark : remarkKinds.contains kind = false := by
    rcases hkind with rfl | rfl | rfl <;> decide
  rw [firstOfKind?_unremarked t hremark]
  cases hlist : t.firstOfKind? kind with
  | none => rfl
  | some list =>
      exact typesOf_unremarked (h.child (mem_of_firstOfKind? hlist))
        ((kind_of_firstOfKind? hlist).symm ▸ hkind)

theorem typeList_unremarked : typeList source t.unremarked = typeList source t :=
  typesOf_firstOfKind? h (.inl rfl)

theorem throws_unremarked : throws source t.unremarked = throws source t :=
  typesOf_firstOfKind? h (.inr (.inr rfl))

theorem interfaces_unremarked : interfaces source t.unremarked = interfaces source t := by
  rw [interfaces, h.here.child?_unremarked (by decide), interfaces]
  cases hlist : t.child? "interfaces" with
  | none => rfl
  | some list => exact typeList_unremarked (h.child? hlist)

theorem superclass_unremarked : superclass source t.unremarked = superclass source t := by
  rw [superclass, h.here.child?_unremarked (by decide), superclass]
  cases hchild : t.child? "superclass" with
  | none => rfl
  | some child =>
      have hfirst : ∀ c ∈ child.parts.take 1, c.isRemark = false := by
        intro c hc
        exact (h.child? hchild).here.unheeded c (by simp [heeded, role_of_child? hchild, hc])
      simp only [Option.map_some, parts_unremarked]
      cases hparts : child.parts with
      | nil => rfl
      | cons first rest =>
          rw [unremarkedAll_cons (hfirst first (by simp [hparts]))]
          simp only [text_unremarked]

theorem typeParameter?_unremarked :
    typeParameter? source t.unremarked = typeParameter? source t := by
  rw [typeParameter?, kind_unremarked, typesOf_firstOfKind? h (.inr (.inl rfl)),
    firstOfKind?_unremarked t rfl, Option.map_map, typeParameter?]
  congr 2
  funext name
  rw [Function.comp, text_unremarked]

theorem typeParameters_unremarked :
    typeParameters source t.unremarked = typeParameters source t := by
  rw [typeParameters, h.here.child?_unremarked (by decide), typeParameters]
  cases hlist : t.child? "type_parameters" with
  | none => rfl
  | some list =>
      simp only [Option.map_some, parts_unremarked]
      refine filterMap_unremarkedAll ?_ ?_
      · intro c _ hremark
        exact if_neg (of_isRemark (P := fun kind => ¬ kind = "type_parameter") (by decide) hremark)
      · intro c hc _
        exact typeParameter?_unremarked ((h.child? hlist).part hc)

theorem typeWith?_unremarked {named : ParseTree}
    (hnamed : named.Throughout (Discreet isComment heeded)) :
    typeWith? source t.unremarked named.unremarked = typeWith? source t named := by
  rw [typeWith?, h.here.textOf?_unremarked source (by decide),
    hnamed.here.textOf?_unremarked source (by decide), typeWith?]

/-- The type of a spread parameter is found behind the same child. -/
theorem spreadElement_unremarked (hkind : t.kind = "spread_parameter") :
    (t.unremarked.parts.find? fun part =>
      part.kind != "modifiers" && part.kind != "variable_declarator") =
    (t.parts.find? fun part =>
      part.kind != "modifiers" && part.kind != "variable_declarator").map unremarked := by
  rw [parts_unremarked]
  refine find?_unremarkedAll_of_found (fun c _ => by rw [kind_unremarked]) ?_
  intro c hc
  exact h.here.unheeded c (by simp [heeded, hkind, hc])

theorem declaratorName_unremarked :
    ((t.unremarked.firstOfKind? "variable_declarator").bind fun d => d.textOf? "name" source) =
      (t.firstOfKind? "variable_declarator").bind fun d => d.textOf? "name" source := by
  rw [firstOfKind?_unremarked t rfl]
  cases hdeclarator : t.firstOfKind? "variable_declarator" with
  | none => rfl
  | some declarator =>
      exact (h.child (mem_of_firstOfKind? hdeclarator)).here.textOf?_unremarked source (by decide)

theorem parameter?_unremarked : parameter? source t.unremarked = parameter? source t := by
  rw [parameter?, kind_unremarked, h.here.textOf?_unremarked source (by decide),
    typeWith?_unremarked h h, declaratorName_unremarked h, parameter?]
  by_cases hspread : t.kind = "spread_parameter"
  · rw [spreadElement_unremarked h hspread]
    simp only [Option.bind_map, Function.comp_def, text_unremarked]
  · rw [if_neg hspread, if_neg hspread]

theorem parameters_unremarked : parameters source t.unremarked = parameters source t := by
  rw [parameters, h.here.child?_unremarked (by decide), parameters]
  cases hlist : t.child? "parameters" with
  | none => rfl
  | some list =>
      simp only [Option.map_some, parts_unremarked]
      refine filterMap_unremarkedAll ?_ ?_
      · intro c _ hremark
        have hkind := of_isRemark (P := fun kind =>
          ¬ kind = "formal_parameter" ∧ ¬ kind = "spread_parameter") (by decide) hremark
        rw [parameter?, if_neg hkind.1, if_neg hkind.2]
      · intro c hc _
        exact parameter?_unremarked ((h.child? hlist).part hc)

/-! ## Leaves -/

theorem method?_unremarked (owner : Owner) :
    method? source owner t.unremarked = method? source owner t := by
  have hbody : (t.unremarked.child? "body").isNone = (t.child? "body").isNone := by
    rw [h.here.child?_unremarked (by decide), Option.isNone_map]
  rw [method?, h.here.textOf?_unremarked source (by decide),
    h.here.textOf?_unremarked source (by decide), hbody, keywords_unremarked,
    isDefault_unremarked, visibility_unremarked, annotations_unremarked,
    typeParameters_unremarked h, parameters_unremarked h, typeWith?_unremarked h h,
    throws_unremarked h, location_unremarked, method?]

theorem constructor?_unremarked (owner : Owner) :
    constructor? source owner t.unremarked = constructor? source owner t := by
  rw [constructor?, h.here.textOf?_unremarked source (by decide),
    h.here.textOf?_unremarked source (by decide), keywords_unremarked, access?_unremarked,
    annotations_unremarked, typeParameters_unremarked h, parameters_unremarked h,
    throws_unremarked h, location_unremarked, constructor?]

theorem fieldNodes_unremarked (owner : Owner) :
    fieldNodes source owner t.unremarked = fieldNodes source owner t := by
  rw [fieldNodes, h.here.childrenOf_unremarked (by decide), visibility_unremarked,
    keywords_unremarked, annotations_unremarked, location_unremarked, fieldNodes,
    List.filterMap_map]
  refine List.filterMap_congr ?_
  intro declarator hdeclarator
  have hbelow := h.child (List.mem_filter.mp hdeclarator).1
  simp only [Function.comp, hbelow.here.textOf?_unremarked, typeWith?_unremarked h hbelow, ne_eq,
    String.reduceEq, not_false_eq_true]

theorem componentField?_unremarked :
    componentField? source t.unremarked = componentField? source t := by
  rw [componentField?, kind_unremarked, h.here.textOf?_unremarked source (by decide),
    h.here.textOf?_unremarked source (by decide), annotations_unremarked, location_unremarked,
    componentField?]

theorem componentFields_unremarked :
    componentFields source t.unremarked = componentFields source t := by
  rw [componentFields, h.here.child?_unremarked (by decide), componentFields]
  cases hlist : t.child? "parameters" with
  | none => rfl
  | some list =>
      simp only [Option.map_some, parts_unremarked]
      refine filterMap_unremarkedAll ?_ ?_
      · intro c _ hremark
        exact if_neg
          (of_isRemark (P := fun kind => ¬ kind = "formal_parameter") (by decide) hremark)
      · intro c hc _
        exact componentField?_unremarked ((h.child? hlist).part hc)

theorem constantField?_unremarked (enumName : String) :
    constantField? source enumName t.unremarked = constantField? source enumName t := by
  rw [constantField?, h.here.textOf?_unremarked source (by decide), location_unremarked,
    constantField?]

theorem leafMember_unremarked (owner : Owner) :
    leafMember source owner t.unremarked = leafMember source owner t := by
  rw [leafMember, kind_unremarked, packageNode, importNode, text_unremarked, location_unremarked,
    method?_unremarked h, constructor?_unremarked h, fieldNodes_unremarked h]
  rfl

/-! ## Types -/

theorem typeHead?_unremarked (owner : Owner) (kind : TypeKind) :
    typeHead? source owner kind t.unremarked = typeHead? source owner kind t := by
  rw [typeHead?, h.here.textOf?_unremarked source (by decide), visibility_unremarked,
    keywords_unremarked, annotations_unremarked, typeParameters_unremarked h,
    location_unremarked, typeHead?]

theorem classHead?_unremarked (owner : Owner) :
    classHead? source owner t.unremarked = classHead? source owner t := by
  rw [classHead?, typeHead?_unremarked h, superclass_unremarked h, interfaces_unremarked h,
    classHead?]

theorem interfaceHead?_unremarked (owner : Owner) :
    interfaceHead? source owner t.unremarked = interfaceHead? source owner t := by
  have hbases : ((t.unremarked.firstOfKind? "extends_interfaces").map (typeList source)).getD [] =
      ((t.firstOfKind? "extends_interfaces").map (typeList source)).getD [] := by
    rw [firstOfKind?_unremarked t rfl]
    cases hlist : t.firstOfKind? "extends_interfaces" with
    | none => rfl
    | some list => exact typeList_unremarked (h.child (mem_of_firstOfKind? hlist))
  rw [interfaceHead?, typeHead?_unremarked h, hbases, interfaceHead?]

theorem enumHead?_unremarked (owner : Owner) :
    enumHead? source owner t.unremarked = enumHead? source owner t := by
  rw [enumHead?, typeHead?_unremarked h, interfaces_unremarked h, enumHead?]

theorem recordHead?_unremarked (owner : Owner) :
    recordHead? source owner t.unremarked = recordHead? source owner t := by
  rw [recordHead?, typeHead?_unremarked h, interfaces_unremarked h, recordHead?]

end Parts

/-! ## Members -/

theorem member_of_isRemark (owner : Owner) (ht : t.isRemark = true) :
    member source owner t = [] := by
  rcases isRemark_iff.mp ht with hkind | hkind | hkind <;> simp [member, leafMember, hkind]

theorem enumPiece_of_isRemark (enumName : String) (ht : t.isRemark = true) :
    Alike (enumPiece source enumName t).nodes [] := by
  have hkind := of_isRemark (P := fun kind =>
    ¬ kind = "enum_constant" ∧ ¬ kind = "enum_body_declarations") (by decide) ht
  rw [enumPiece, if_neg hkind.1, if_neg hkind.2]
  split_ifs
  · exact alike_commentPiece _
  · rw [Piece.nodes, member_of_isRemark .enumType ht]

/-- A body holds what its children declare; its comments come on top. -/
theorem alike_members (source : List Char) (owner : Owner) (t : ParseTree) :
    Alike (members source owner t) (t.parts.flatMap (member source owner)) := by
  rw [members_eq]
  refine alike_arrange ?_
  intro c _
  split_ifs with hcomment
  · have hremark : c.isRemark = true := by
      simp only [isComment, Bool.or_eq_true, beq_iff_eq] at hcomment
      exact isRemark_iff.mpr (.inr hcomment)
    rw [member_of_isRemark owner hremark]
    exact alike_commentPiece _
  · rfl

/-- What a node gives differs in comments alone, whether it stands as a member, as a body, in the
body of an enum or as the body of an enum. -/
structure Unmoved (source : List Char) (t : ParseTree) : Prop where
  member : ∀ owner, Alike (member source owner t.unremarked) (member source owner t)
  members : ∀ owner, Alike (members source owner t.unremarked) (members source owner t)
  enumPiece : ∀ enumName,
    Alike (enumPiece source enumName t.unremarked).nodes (enumPiece source enumName t).nodes
  enumBody : ∀ enumName, Alike (arrange (t.unremarked.parts.map (Java.enumPiece source enumName)))
    (arrange (t.parts.map (Java.enumPiece source enumName)))

theorem members_unmoved (ih : ∀ c ∈ t.children, Unmoved source c) (owner : Owner) :
    Alike (members source owner t.unremarked) (members source owner t) := by
  refine (alike_members source owner _).trans (.trans ?_ (alike_members source owner t).symm)
  rw [parts_unremarked]
  refine alike_unremarkedAll ?_ ?_
  · intro c _ hremark
    rw [member_of_isRemark owner hremark]
  · intro c hc _
    exact (ih c (mem_of_mem_parts hc)).member owner

theorem enumBody_unmoved (ih : ∀ c ∈ t.children, Unmoved source c) (enumName : String) :
    Alike (arrange (t.unremarked.parts.map (enumPiece source enumName)))
      (arrange (t.parts.map (enumPiece source enumName))) := by
  have hpieces (ts : List ParseTree) : Alike (arrange (ts.map (enumPiece source enumName)))
      (ts.flatMap fun c => (enumPiece source enumName c).nodes) :=
    alike_arrange fun c _ => .refl _
  refine (hpieces _).trans (.trans ?_ (hpieces t.parts).symm)
  rw [parts_unremarked]
  refine alike_unremarkedAll ?_ ?_
  · exact fun c _ hremark => enumPiece_of_isRemark enumName hremark
  · exact fun c hc _ => (ih c (mem_of_mem_parts hc)).enumPiece enumName

theorem body_unmoved (h : t.Throughout (Discreet isComment heeded))
    (ih : ∀ c ∈ t.children, Unmoved source c) (owner : Owner) :
    Alike (body source owner t.unremarked) (body source owner t) := by
  rw [body_eq, body_eq, h.here.child?_unremarked (by decide)]
  cases hbody : t.child? "body" with
  | none => rfl
  | some block => exact (ih block (mem_of_child? hbody)).members owner

/-- Type declarations with the same head and members that differ in comments alone. -/
theorem declared_unmoved {found : Option TypeHead} {inside inside' : TypeHead → List Node}
    (h : ∀ head, Alike (inside head) (inside' head)) :
    Alike (found.toList.map fun head => .branch (.type head) (inside head))
      (found.toList.map fun head => .branch (.type head) (inside' head)) := by
  cases found with
  | none => rfl
  | some head => exact alike_branch rfl (h head)

theorem member_unmoved (h : t.Throughout (Discreet isComment heeded))
    (ih : ∀ c ∈ t.children, Unmoved source c) (owner : Owner) :
    Alike (member source owner t.unremarked) (member source owner t) := by
  have hbody := body_unmoved h ih
  by_cases henum : t.kind = "enum_declaration"
  · rw [member_of_enum source owner _ (by rw [kind_unremarked, henum]),
      member_of_enum source owner t henum, enumHead?_unremarked h,
      h.here.child?_unremarked (by decide)]
    refine declared_unmoved ?_
    intro head
    cases hblock : t.child? "body" with
    | none => rfl
    | some block => exact (ih block (mem_of_child? hblock)).enumBody head.name
  · rw [member, member, kind_unremarked, if_neg henum, if_neg henum]
    split_ifs
    · rw [classHead?_unremarked h]
      exact declared_unmoved fun _ => hbody _
    · rw [interfaceHead?_unremarked h]
      exact declared_unmoved fun _ => hbody _
    · rw [recordHead?_unremarked h, componentFields_unremarked h]
      exact declared_unmoved fun _ => (Alike.refl _).append (hbody _)
    · rw [leafMember_unremarked h]

theorem unmoved_of_discreet (h : t.Throughout (Discreet isComment heeded)) : Unmoved source t := by
  induction h with
  | @intro t here below ih =>
      have h : t.Throughout (Discreet isComment heeded) := .intro here below
      have hmember := member_unmoved h ih
      have hmembers := members_unmoved ih
      refine ⟨hmember, hmembers, ?_, enumBody_unmoved ih⟩
      intro enumName
      rw [enumPiece, enumPiece, kind_unremarked, constantField?_unremarked h]
      have hcomment : isComment t.unremarked = isComment t := by
        rw [isComment, kind_unremarked, isComment]
      rw [hcomment]
      split_ifs
      · rfl
      · exact (alike_commentPiece _).trans (alike_commentPiece _).symm
      · exact hmembers .enumType
      · exact hmember .enumType

theorem outline_unmoved (h : t.Throughout (Discreet isComment heeded)) :
    Alike (outline source t.unremarked) (outline source t) :=
  (unmoved_of_discreet h).members .file

end Precis.Java
