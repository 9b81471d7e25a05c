import Precis.Proofs.Comments.Alike

/-! # Comments in Rust sources -/

namespace Precis.Rust

open Node ParseTree

/-- The children of a node that are taken for types whatever they are: those in a list of bounds. -/
def heeded (t : ParseTree) : List ParseTree :=
  if t.role = "bounds" then t.parts else []

variable {source : List Char} {t : ParseTree}

theorem isComment_unremarked (t : ParseTree) : isComment t.unremarked = isComment t := by
  rw [isComment, kind_unremarked, isComment]

theorem isRemark_of_isComment (h : isComment t = true) : t.isRemark = true := by
  simp only [isComment, Bool.or_eq_true, beq_iff_eq] at h
  exact isRemark_iff.mpr (.inr h)

theorem isAttribute_of_isRemark (h : t.isRemark = true) : isAttribute t = false :=
  of_isRemark (P := fun kind => (kind == "attribute_item") = false) (by decide) h

theorem visibility_unremarked (source : List Char) (t : ParseTree) :
    visibility source t.unremarked = visibility source t := by
  rw [visibility, firstOfKind?_unremarked t rfl, visibility]
  cases t.firstOfKind? "visibility_modifier" with
  | none => rfl
  | some modifier => simp only [Option.map_some, text_unremarked]

theorem functionModifiers_unremarked (t : ParseTree) :
    functionModifiers t.unremarked = functionModifiers t := by
  rw [functionModifiers, firstOfKind?_unremarked t rfl, functionModifiers]
  cases t.firstOfKind? "function_modifiers" with
  | none => rfl
  | some keywords =>
      simp only [Option.map_some, children_unremarked]
      refine filterMap_unremarkedAll ?_ fun c _ _ => by rw [kind_unremarked]
      exact fun c _ => of_isRemark (P := fun kind => modifierOf? kind = none) (by decide)

/-! ## Parts of declarations -/

section Parts

variable (h : t.Throughout (Discreet isComment heeded))

include h

theorem boundsOf_unremarked : boundsOf source t.unremarked = boundsOf source t := by
  rw [boundsOf, h.here.child?_unremarked (by decide), boundsOf]
  cases hbounds : t.child? "bounds" with
  | none => rfl
  | some bounds =>
      have hparts : ∀ c ∈ bounds.parts, c.isRemark = false := by
        intro c hc
        exact (h.child? hbounds).here.unheeded c (by simp [heeded, role_of_child? hbounds, hc])
      simp only [Option.map_some, parts_unremarked, unremarkedAll_eq_map hparts, List.map_map]
      refine List.map_congr_left ?_
      intro c _
      rw [Function.comp, text_unremarked]

theorem typeOf?_unremarked {role : String} (hrole : role ≠ "") :
    typeOf? source t.unremarked role = typeOf? source t role := by
  rw [typeOf?, h.here.textOf?_unremarked source hrole, typeOf?]

theorem typeParameter_unremarked : typeParameter source t.unremarked = typeParameter source t := by
  rw [typeParameter, h.here.textOf?_unremarked source (by decide),
    h.here.textOf?_unremarked source (by decide), text_unremarked, boundsOf_unremarked h,
    typeOf?_unremarked h (by decide), typeParameter]

theorem typeParameters_unremarked :
    typeParameters source t.unremarked = typeParameters source t := by
  rw [typeParameters, h.here.child?_unremarked (by decide), typeParameters]
  cases hlist : t.child? "type_parameters" with
  | none => rfl
  | some list =>
      simp only [Option.map_some, parts_unremarked]
      refine map_filter_unremarkedAll ?_ ?_ ?_
      · intro c
        rw [isComment_unremarked, isAttribute, kind_unremarked, isAttribute]
      · intro c hc hremark
        simp [(h.child? hlist).here.own c (mem_of_mem_parts hc) hremark]
      · exact fun c hc => typeParameter_unremarked ((h.child? hlist).part hc)

theorem parameter?_unremarked : parameter? source t.unremarked = parameter? source t := by
  rw [parameter?, kind_unremarked, h.here.textOf?_unremarked source (by decide),
    typeOf?_unremarked h (by decide), text_unremarked, parameter?]

theorem parameters_unremarked : parameters source t.unremarked = parameters source t := by
  rw [parameters, h.here.child?_unremarked (by decide), parameters]
  cases hlist : t.child? "parameters" with
  | none => rfl
  | some list =>
      simp only [Option.map_some, parts_unremarked]
      refine filterMap_unremarkedAll ?_ ?_
      · intro c _ hremark
        rcases isRemark_iff.mp hremark with hkind | hkind | hkind <;> simp [parameter?, hkind]
      · exact fun c hc _ => parameter?_unremarked ((h.child? hlist).part hc)

/-! ## Leaves -/

theorem function?_unremarked (forced : Option Visibility) (attributes : List String) :
    function? source forced ⟨attributes, t.unremarked⟩ =
      function? source forced ⟨attributes, t⟩ := by
  simp only [function?]
  rw [h.here.textOf?_unremarked source (by decide), h.here.textOf?_unremarked source (by decide),
    visibility_unremarked, functionModifiers_unremarked, typeParameters_unremarked h,
    parameters_unremarked h, typeOf?_unremarked h (by decide), location_unremarked]

theorem constant?_unremarked (forced : Option Visibility) (attributes : List String) :
    constant? source forced ⟨attributes, t.unremarked⟩ =
      constant? source forced ⟨attributes, t⟩ := by
  simp only [constant?]
  rw [h.here.textOf?_unremarked source (by decide), h.here.textOf?_unremarked source (by decide),
    visibility_unremarked, kind_unremarked, typeOf?_unremarked h (by decide), location_unremarked]

theorem typeAlias?_unremarked (forced : Option Visibility) :
    typeAlias? source forced t.unremarked = typeAlias? source forced t := by
  rw [typeAlias?, h.here.textOf?_unremarked source (by decide), visibility_unremarked,
    typeParameters_unremarked h, typeOf?_unremarked h (by decide), location_unremarked, typeAlias?]

theorem field?_unremarked (attributes : List String) :
    field? source ⟨attributes, t.unremarked⟩ = field? source ⟨attributes, t⟩ := by
  simp only [field?]
  rw [h.here.textOf?_unremarked source (by decide), visibility_unremarked,
    typeOf?_unremarked h (by decide), location_unremarked]

theorem variant?_unremarked (enumName : List Char) :
    variant? source enumName t.unremarked = variant? source enumName t := by
  rw [variant?, h.here.textOf?_unremarked source (by decide), location_unremarked, variant?]

theorem useNode?_unremarked : useNode? source t.unremarked = useNode? source t := by
  rw [useNode?, h.here.textOf?_unremarked source (by decide), location_unremarked, useNode?]

theorem crateNode?_unremarked : crateNode? source t.unremarked = crateNode? source t := by
  rw [crateNode?, h.here.textOf?_unremarked source (by decide),
    h.here.textOf?_unremarked source (by decide), location_unremarked, crateNode?]

end Parts

/-! ## Bodies of comments, attributes and elements -/

/-- The item without the comments in it. -/
def Item.unremarked (item : Item) : Item where
  attributes := item.attributes
  tree := item.tree.unremarked

/-- Attributes go to the same elements without the comments between them. -/
theorem withAttributes_unremarkedAll (attributes : List String) {parts : List ParseTree}
    (hown : ∀ c ∈ parts, c.isRemark = true → isComment c = true) :
    withAttributes source attributes (unremarkedAll parts) =
      ((withAttributes source attributes parts).filter fun item => !item.tree.isRemark).map
        Item.unremarked := by
  induction parts generalizing attributes with
  | nil => rfl
  | cons c rest ih =>
      obtain ⟨hc, hrest⟩ := List.forall_mem_cons.mp hown
      cases hkind : c.isRemark with
      | true =>
          simp [unremarkedAll_cons_of_remark hkind, withAttributes, isAttribute_of_isRemark hkind,
            hc hkind, hkind, ih _ hrest]
      | false =>
          have hcomment : isComment c = false := by
            by_contra hcomment
            have hremark := isRemark_of_isComment (by simpa using hcomment)
            exact Bool.false_ne_true (hkind.symm.trans hremark)
          have hattribute : isAttribute c.unremarked = isAttribute c := by
            rw [isAttribute, kind_unremarked, isAttribute]
          rw [unremarkedAll_cons hkind, withAttributes, withAttributes, hattribute,
            isComment_unremarked, hcomment, text_unremarked]
          cases isAttribute c with
          | true => exact ih _ hrest
          | false => simp [hkind, ih _ hrest, Item.unremarked]

/-- The nodes of an element; comments have none. -/
def elementNodes (nodes : Item → List Node) (item : Item) : List Node :=
  if isComment item.tree then [] else nodes item

theorem alike_pieces (source : List Char) (nodes : Item → List Node) (items : List Item) :
    Alike (arrange (pieces source nodes items)) (items.flatMap (elementNodes nodes)) := by
  refine alike_arrange ?_
  intro item _
  rw [elementNodes]
  split_ifs
  · exact alike_commentPiece _
  · rfl

/-- A body differs in comments alone if each of its elements does. -/
theorem alike_arrange_pieces {nodes : Item → List Node} {parts : List ParseTree}
    (hown : ∀ c ∈ parts, c.isRemark = true → isComment c = true)
    (h : ∀ c ∈ parts, ∀ attributes, nodes ⟨attributes, c.unremarked⟩ = nodes ⟨attributes, c⟩) :
    Alike (arrange (pieces source nodes (itemsOf source (unremarkedAll parts))))
      (arrange (pieces source nodes (itemsOf source parts))) := by
  refine (alike_pieces source nodes _).trans (.trans ?_ (alike_pieces source nodes _).symm)
  rw [itemsOf, withAttributes_unremarkedAll [] hown]
  refine alike_filter_map ?_ ?_
  · intro item hitem hkind
    have hremark : item.tree.isRemark = true := by simpa using hkind
    rw [elementNodes, if_pos (hown item.tree (mem_of_mem_withAttributes hitem) hremark)]
  · intro item hitem _
    rw [elementNodes, elementNodes, Item.unremarked, isComment_unremarked,
      h item.tree (mem_of_mem_withAttributes hitem)]

theorem tupleFieldsFrom_unremarkedAll (position : Nat) (visibility : Visibility)
    {parts : List ParseTree} (hown : ∀ c ∈ parts, c.isRemark = true → isComment c = true) :
    tupleFieldsFrom source position visibility (unremarkedAll parts) =
      tupleFieldsFrom source position visibility parts := by
  induction parts generalizing position visibility with
  | nil => rfl
  | cons c rest ih =>
      obtain ⟨hc, hrest⟩ := List.forall_mem_cons.mp hown
      cases hkind : c.isRemark with
      | true =>
          have hmodifier : ¬ c.kind = "visibility_modifier" :=
            of_isRemark (P := fun kind => ¬ kind = "visibility_modifier") (by decide) hkind
          rw [unremarkedAll_cons_of_remark hkind, tupleFieldsFrom, if_neg hmodifier,
            if_pos (by simp [hc hkind]), ih _ _ hrest]
      | false =>
          rw [unremarkedAll_cons hkind, tupleFieldsFrom, tupleFieldsFrom, isAttribute,
            isComment_unremarked, kind_unremarked, text_unremarked, location_unremarked,
            ih _ _ hrest, ih _ _ hrest, ih _ _ hrest, isAttribute]

section Bodies

variable (h : t.Throughout (Discreet isComment heeded))

include h

theorem own_parts : ∀ c ∈ t.parts, c.isRemark = true → isComment c = true :=
  fun c hc => h.here.own c (mem_of_mem_parts hc)

theorem namedFields_unmoved : Alike (namedFields source t.unremarked) (namedFields source t) := by
  rw [namedFields, namedFields, parts_unremarked, filter_unremarkedAll]
  · refine alike_arrange_pieces ?_ ?_
    · exact fun c hc => own_parts h c (List.mem_filter.mp hc).1
    · intro c hc attributes
      rw [field?_unremarked (h.part (List.mem_filter.mp hc).1)]
  · intro c
    rw [isComment_unremarked, isAttribute, kind_unremarked, isAttribute]

theorem structFields_unmoved :
    Alike (structFields source t.unremarked) (structFields source t) := by
  rw [structFields, structFields, h.here.child?_unremarked (by decide)]
  cases hbody : t.child? "body" with
  | none => rfl
  | some body =>
      have hbelow := h.child? hbody
      simp only [Option.map_some, kind_unremarked]
      split_ifs
      · exact namedFields_unmoved hbelow
      · rw [tupleFields, parts_unremarked, tupleFieldsFrom_unremarkedAll _ _ (own_parts hbelow),
          tupleFields]
      · rfl

theorem variants_unmoved (enumName : List Char) :
    Alike (variants source enumName t.unremarked) (variants source enumName t) := by
  rw [variants, variants, h.here.child?_unremarked (by decide)]
  cases hbody : t.child? "body" with
  | none => rfl
  | some body =>
      have hbelow := h.child? hbody
      have hpieces (ts : List ParseTree) : Alike
          (arrange (ts.map fun part =>
            if isComment part then commentPiece source part
            else .element (variant? source enumName part).toList))
          (ts.flatMap fun part =>
            if isComment part then [] else (variant? source enumName part).toList) := by
        refine alike_arrange ?_
        intro c _
        split_ifs
        · exact alike_commentPiece _
        · rfl
      simp only [Option.map_some, parts_unremarked]
      rw [filter_unremarkedAll fun c => by rw [isComment_unremarked, kind_unremarked]]
      refine (hpieces _).trans (.trans ?_ (hpieces _).symm)
      refine alike_unremarkedAll ?_ ?_
      · intro c hc hremark
        rw [if_pos (own_parts hbelow c (List.mem_filter.mp hc).1 hremark)]
      · intro c hc _
        rw [isComment_unremarked,
          variant?_unremarked (hbelow.part (List.mem_filter.mp hc).1)]

theorem traitMembers_unmoved :
    Alike (traitMembers source t.unremarked) (traitMembers source t) := by
  rw [traitMembers, traitMembers, h.here.child?_unremarked (by decide)]
  cases hbody : t.child? "body" with
  | none => rfl
  | some body =>
      have hbelow := h.child? hbody
      simp only [Option.map_some, traitBody, parts_unremarked]
      refine alike_arrange_pieces (own_parts hbelow) ?_
      intro c hc attributes
      have hc := hbelow.part hc
      simp only [traitMember, kind_unremarked, function?_unremarked hc, constant?_unremarked hc]

theorem implMembers_unmoved (ofTrait : Bool) :
    Alike (implMembers source ofTrait t.unremarked) (implMembers source ofTrait t) := by
  rw [implMembers, implMembers, h.here.child?_unremarked (by decide)]
  cases hbody : t.child? "body" with
  | none => rfl
  | some body =>
      have hbelow := h.child? hbody
      simp only [Option.map_some, implBody, parts_unremarked]
      refine alike_arrange_pieces (own_parts hbelow) ?_
      intro c hc attributes
      have hc := hbelow.part hc
      simp only [implMember, kind_unremarked, function?_unremarked hc, constant?_unremarked hc,
        typeAlias?_unremarked hc]

/-! ## Types -/

theorem typeHead_unremarked (kind : TypeKind) (name : List Char) (attributes : List String) :
    typeHead source kind name ⟨attributes, t.unremarked⟩ =
      typeHead source kind name ⟨attributes, t⟩ := by
  simp only [typeHead]
  rw [visibility_unremarked, typeParameters_unremarked h, location_unremarked]

end Bodies

/-! ## Implementations -/

/-- The group without the comments among its members. -/
def ImplGroup.silenced (group : ImplGroup) : ImplGroup :=
  { group with members := Selection.silent.remnants group.members }

theorem alike_silenced (group : ImplGroup) : Alike group.silenced.members group.members := by
  rw [Alike, ImplGroup.silenced, Selection.remnants_remnants, Selection.meet_silent rfl rfl]

theorem addImpl_silenced (found : List ImplGroup) (new : ImplGroup) :
    (addImpl found new).map ImplGroup.silenced =
      addImpl (found.map ImplGroup.silenced) new.silenced := by
  induction found with
  | nil => rfl
  | cons group rest ih =>
      rw [addImpl, List.map_cons, addImpl]
      split_ifs with htarget htarget' htarget'
      · simp [ImplGroup.silenced, Selection.remnants_append]
      · exact absurd htarget htarget'
      · exact absurd htarget' htarget
      · rw [List.map_cons, ih]

theorem foldl_addImpl_silenced (found new : List ImplGroup) :
    (new.foldl addImpl found).map ImplGroup.silenced =
      (new.map ImplGroup.silenced).foldl addImpl (found.map ImplGroup.silenced) := by
  induction new generalizing found with
  | nil => rfl
  | cons group rest ih => rw [List.foldl_cons, ih, addImpl_silenced, List.map_cons, List.foldl_cons]

theorem implGroups_silenced (source : List Char) (parts : List ParseTree) :
    (implGroups source parts).map ImplGroup.silenced =
      (parts.filterMap fun t => (implGroup? source t).map ImplGroup.silenced).foldl addImpl [] := by
  rw [implGroups, foldl_addImpl_silenced, List.map_filterMap]
  rfl

/-- Groups are handed out by their targets, whatever their members are. -/
theorem assign_silenced (source : List Char) (locals : List (List Char))
    (groups : List ImplGroup) (items : List Item) :
    assign source locals (groups.map ImplGroup.silenced) items =
      (assign source locals groups items).map fun x => (x.1, x.2.map ImplGroup.silenced) := by
  induction items generalizing groups with
  | nil => rfl
  | cons item rest ih =>
      have htaken : ((claim? source locals item.tree).bind fun target =>
          (groups.map ImplGroup.silenced).find? fun group => group.target == target) =
          ((claim? source locals item.tree).bind fun target =>
            groups.find? fun group => group.target == target).map ImplGroup.silenced := by
        cases claim? source locals item.tree with
        | none => rfl
        | some target => exact List.find?_map
      rw [assign, assign, htaken]
      cases (claim? source locals item.tree).bind fun target =>
          groups.find? fun group => group.target == target with
      | none =>
          simp only [Option.map_none, List.map_cons]
          rw [ih]
      | some group =>
          have hothers : ((groups.map ImplGroup.silenced).filter fun other =>
              other.target != group.silenced.target) =
              (groups.filter fun other => other.target != group.target).map
                ImplGroup.silenced := List.filter_map
          simp only [Option.map_some, List.map_cons, hothers]
          rw [ih]

/-- The first items that take up groups stay the first without the comments among them. -/
theorem assign_unremarked {locals : List (List Char)} {items : List Item}
    (hremark : ∀ item ∈ items, item.tree.isRemark = true → claim? source locals item.tree = none)
    (hclaim : ∀ item ∈ items,
      claim? source locals item.tree.unremarked = claim? source locals item.tree)
    (groups : List ImplGroup) :
    assign source locals groups
        ((items.filter fun item => !item.tree.isRemark).map Item.unremarked) =
      ((assign source locals groups items).filter fun x => !x.1.tree.isRemark).map
        fun x => (x.1.unremarked, x.2) := by
  induction items generalizing groups with
  | nil => rfl
  | cons item rest ih =>
      obtain ⟨hnone, hnones⟩ := List.forall_mem_cons.mp hremark
      obtain ⟨hitem, hrest⟩ := List.forall_mem_cons.mp hclaim
      cases hkind : item.tree.isRemark with
      | true =>
          -- A comment takes up no group, so the same groups are left for the rest.
          simp [assign, hnone hkind, hkind, ih hnones hrest]
      | false =>
          rw [List.filter_cons_of_pos (by simp [hkind]), List.map_cons, assign, assign,
            Item.unremarked, hitem]
          split <;> simp [hkind, ih hnones hrest, Item.unremarked]

section Groups

variable (h : t.Throughout (Discreet isComment heeded))

include h

theorem implTarget?_unremarked : implTarget? source t.unremarked = implTarget? source t := by
  rw [implTarget?, h.here.textOf?_unremarked source (by decide), implTarget?]

theorem implGroup?_unremarked :
    (implGroup? source t.unremarked).map ImplGroup.silenced =
      (implGroup? source t).map ImplGroup.silenced := by
  rw [implGroup?, implGroup?, kind_unremarked, implTarget?_unremarked h,
    typeOf?_unremarked h (by decide), location_unremarked, typeParameters_unremarked h]
  split_ifs
  · cases implTarget? source t with
    | none => rfl
    | some target =>
        have hmembers := @implMembers_unmoved source t h (typeOf? source t "trait").isSome
        rw [Alike] at hmembers
        simp [ImplGroup.silenced, hmembers]
  · rfl

theorem implGroups_unremarked :
    (implGroups source t.unremarked.parts).map ImplGroup.silenced =
      (implGroups source t.parts).map ImplGroup.silenced := by
  rw [implGroups_silenced, implGroups_silenced, parts_unremarked]
  congr 1
  refine filterMap_unremarkedAll ?_ ?_
  · intro c _ hremark
    have hkind := of_isRemark (P := fun kind => ¬ kind = "impl_item") (by decide) hremark
    rw [implGroup?, if_neg hkind, Option.map_none]
  · exact fun c hc _ => implGroup?_unremarked (h.part hc)

theorem localTypes_unremarked :
    localTypes source t.unremarked.parts = localTypes source t.parts := by
  rw [localTypes, parts_unremarked, localTypes, filter_unremarkedAll]
  · refine filterMap_unremarkedAll ?_ ?_
    · intro c hc hremark
      have hkind : declaresType c = false := of_isRemark (P := fun kind =>
        (kind == "struct_item" || kind == "union_item" || kind == "enum_item") = false)
        (by decide) hremark
      exact absurd (List.mem_filter.mp hc).2 (by simp [hkind])
    · intro c hc _
      exact (h.part (List.mem_filter.mp hc).1).here.textOf?_unremarked source (by decide)
  · intro c
    rw [declaresType, kind_unremarked, declaresType]

theorem claim?_unremarked (locals : List (List Char)) :
    claim? source locals t.unremarked = claim? source locals t := by
  rw [claim?, declaresType, kind_unremarked, h.here.textOf?_unremarked source (by decide),
    implTarget?_unremarked h]
  rfl

omit h in
theorem claim?_of_isRemark (locals : List (List Char)) (ht : t.isRemark = true) :
    claim? source locals t = none := by
  rcases isRemark_iff.mp ht with hkind | hkind | hkind <;> simp [claim?, declaresType, hkind]

/-- The items of a container with their groups, up to comments. -/
theorem assignedItems_unremarked :
    (assignedItems source t.unremarked).map (fun x => (x.1, x.2.map ImplGroup.silenced)) =
      (((assignedItems source t).map fun x => (x.1, x.2.map ImplGroup.silenced)).filter
        fun x => !x.1.tree.isRemark).map fun x => (x.1.unremarked, x.2) := by
  have htree : ∀ item ∈ itemsOf source t.parts, item.tree ∈ t.parts :=
    fun item hitem => mem_of_mem_withAttributes hitem
  rw [assignedItems, assignedItems, ← assign_silenced, ← assign_silenced, implGroups_unremarked h,
    localTypes_unremarked h, parts_unremarked, itemsOf,
    withAttributes_unremarkedAll [] (own_parts h)]
  refine assign_unremarked ?_ ?_ _
  · exact fun item _ hremark => claim?_of_isRemark _ hremark
  · exact fun item hitem => claim?_unremarked (h.part (htree item hitem)) _

end Groups

/-! ## Items -/

theorem merged_alike {head : TypeHead} {xs ys : List Node} (group : Option ImplGroup)
    (h : Alike xs ys) : Alike [merged group (head, xs)] [merged group (head, ys)] := by
  cases group with
  | none => exact alike_branch rfl h
  | some group => exact alike_branch rfl (h.append (.refl _))

theorem merged_silenced (group : Option ImplGroup) (declared : TypeHead × List Node) :
    Alike [merged (group.map ImplGroup.silenced) declared] [merged group declared] := by
  cases group with
  | none => rfl
  | some group => exact alike_branch rfl ((Alike.refl _).append (alike_silenced group))

/-- Comments in a group of `impl` blocks stay comments wherever the group goes. -/
theorem plainItem_silenced (item : Item) (group : Option ImplGroup) :
    Alike (plainItem source item (group.map ImplGroup.silenced)) (plainItem source item group) := by
  have hmerged (found : Option (TypeHead × List Node)) :
      Alike (found.map (merged (group.map ImplGroup.silenced))).toList
        (found.map (merged group)).toList := by
    cases found with
    | none => rfl
    | some declared => exact merged_silenced group declared
  have hforeign : Alike ((group.map ImplGroup.silenced).map foreignType).toList
      (group.map foreignType).toList := by
    cases group with
    | none => rfl
    | some group => exact alike_branch rfl (alike_silenced group)
  unfold plainItem
  dsimp only
  apply Alike.ite (.refl _)
  apply Alike.ite (.refl _)
  apply Alike.ite (hmerged _)
  apply Alike.ite (hmerged _)
  apply Alike.ite (.refl _)
  apply Alike.ite hforeign
  exact .refl _

theorem plainItem_unmoved (h : t.Throughout (Discreet isComment heeded)) (attributes : List String)
    (group : Option ImplGroup) :
    Alike (plainItem source ⟨attributes, t.unremarked⟩ group)
      (plainItem source ⟨attributes, t⟩ group) := by
  have hdeclared (head : List Char → TypeHead) {inside inside' : List Char → List Node}
      (hinside : ∀ name, Alike (inside name) (inside' name)) (group : Option ImplGroup) :
      Alike (((t.textOf? "name" source).map fun name => (head name, inside name)).map
          (merged group)).toList
        (((t.textOf? "name" source).map fun name => (head name, inside' name)).map
          (merged group)).toList := by
    cases t.textOf? "name" source with
    | none => rfl
    | some name => exact merged_alike group (hinside name)
  simp only [plainItem, struct?, enum?, trait?, kind_unremarked, useNode?_unremarked h,
    crateNode?_unremarked h, typeHead_unremarked h, boundsOf_unremarked h, function?_unremarked h,
    typeAlias?_unremarked h, constant?_unremarked h,
    h.here.textOf?_unremarked source (by decide : "name" ≠ "")]
  apply Alike.ite (.refl _)
  apply Alike.ite (.refl _)
  apply Alike.ite (hdeclared _ (fun _ => structFields_unmoved h) group)
  apply Alike.ite (hdeclared _ (fun name => variants_unmoved h name) group)
  apply Alike.ite (hdeclared _ (fun _ => traitMembers_unmoved h) none)
  exact .refl _

theorem alike_items (source : List Char) (container : ParseTree) :
    Alike (items source container) (((assignedItems source container).map fun x =>
      (x.1, x.2.map ImplGroup.silenced)).flatMap (itemNodes source)) := by
  rw [items_eq, List.flatMap_map]
  refine alike_arrange ?_
  rintro ⟨item, group⟩ _
  simp only [itemNodes]
  split_ifs
  · exact alike_commentPiece _
  · rfl
  · exact (plainItem_silenced item group).symm

/-- What a node gives differs in comments alone, as a container of items and as a module with a
body. -/
structure Unmoved (source : List Char) (t : ParseTree) : Prop where
  items : Alike (items source t.unremarked) (items source t)
  body : ∀ body, t.child? "body" = some body →
    Alike (Rust.items source body.unremarked) (Rust.items source body)

theorem itemNodes_unmoved {item : Item} (group : Option ImplGroup)
    (h : item.tree.Throughout (Discreet isComment heeded)) (ih : Unmoved source item.tree) :
    Alike (itemNodes source (item.unremarked, group)) (itemNodes source (item, group)) := by
  simp only [itemNodes, Item.unremarked, isComment_unremarked, kind_unremarked,
    location_unremarked, h.here.textOf?_unremarked source (by decide : "name" ≠ ""),
    h.here.child?_unremarked (by decide : "body" ≠ "")]
  split_ifs
  · rfl
  · cases item.tree.textOf? "name" source with
    | none => rfl
    | some name =>
        cases hbody : item.tree.child? "body" with
        | none => rfl
        | some body => exact alike_branch rfl (ih.body body hbody)
  · exact plainItem_unmoved h item.attributes group

theorem items_unmoved (h : t.Throughout (Discreet isComment heeded))
    (ih : ∀ c ∈ t.children, Unmoved source c) :
    Alike (items source t.unremarked) (items source t) := by
  refine (alike_items source _).trans (.trans ?_ (alike_items source t).symm)
  rw [assignedItems_unremarked h]
  have hchild : ∀ x ∈ (assignedItems source t).map fun x => (x.1, x.2.map ImplGroup.silenced),
      x.1.tree ∈ t.children := by
    intro x hx
    obtain ⟨⟨item, group⟩, hmem, rfl⟩ := List.mem_map.mp hx
    exact mem_of_mem_parts (mem_of_mem_withAttributes (mem_of_mem_assign hmem))
  refine alike_filter_map ?_ ?_
  · intro x hx hkind
    have hremark : x.1.tree.isRemark = true := by simpa using hkind
    rw [itemNodes, if_pos (h.here.own x.1.tree (hchild x hx) hremark)]
  · rintro ⟨item, group⟩ hx _
    exact itemNodes_unmoved group (h.child (hchild _ hx)) (ih item.tree (hchild _ hx))

theorem unmoved_of_discreet (h : t.Throughout (Discreet isComment heeded)) : Unmoved source t := by
  induction h with
  | @intro t here below ih =>
      refine ⟨items_unmoved (.intro here below) ih, ?_⟩
      intro body hbody
      exact (ih body (mem_of_child? hbody)).items

theorem outline_unmoved (h : t.Throughout (Discreet isComment heeded)) :
    Alike (outline source t.unremarked) (outline source t) :=
  (unmoved_of_discreet h).items

end Precis.Rust
