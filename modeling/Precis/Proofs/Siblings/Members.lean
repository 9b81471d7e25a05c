import Precis.Proofs.Siblings.Rust

/-! # Fields and variants, child by child

The bodies of structs and enums are read for their members: a child that is neither a member nor a
comment nor an attribute, such as a broken member, is passed over, and what waits in front of it
goes on waiting. So a member takes the doc comments and attributes since the member before it. These
are the ones since the last element, as in other bodies, wherever nothing waits in front of a child
that is passed over. -/

namespace Precis

theorem not_merges_nil {c : Comment} : ¬ Merges [] c := by
  rintro ⟨run, hrun, hjoined⟩
  rw [List.sublist_nil.mp hrun] at hjoined
  cases hjoined

/-! ## Children that are passed over -/

namespace Dialect

variable {d : Dialect} {isMember : ParseTree → Bool}

/-- A child that is neither a comment nor an attribute nor a member. -/
def isStray (d : Dialect) (isMember : ParseTree → Bool) (t : ParseTree) : Bool :=
  d.isElement t && !isMember t

/-- The children that are not passed over. -/
def counted (d : Dialect) (isMember : ParseTree → Bool) (parts : List ParseTree) : List ParseTree :=
  parts.filter fun t => !d.isStray isMember t

/-- Where a child is passed over, nothing is carried along. -/
def Clear {β : Type} (d : Dialect) (isMember : ParseTree → Bool)
    (carried : List ParseTree → List β) (parts : List ParseTree) : Prop :=
  ∀ before t after, parts = before ++ t :: after → d.isStray isMember t = true → carried before = []

theorem clear_of_alongside {β : Type} {carried : List ParseTree → List β} {parts : List ParseTree}
    (h : ∀ child ∈ alongside [] parts, d.isStray isMember child.2 = true → carried child.1 = []) :
    d.Clear isMember carried parts := by
  rintro before t after rfl
  exact h (before, t) (mem_alongside_append [] before t after)

theorem counted_concat_of_stray {before : List ParseTree} {t : ParseTree}
    (h : d.isStray isMember t = true) :
    d.counted isMember (before ++ [t]) = d.counted isMember before := by
  simp [counted, h]

theorem counted_concat {before : List ParseTree} {t : ParseTree}
    (h : d.isStray isMember t = false) :
    d.counted isMember (before ++ [t]) = d.counted isMember before ++ [t] := by
  simp [counted, h]

theorem counted_cons_of_stray {t : ParseTree} (rest : List ParseTree)
    (h : d.isStray isMember t = true) :
    d.counted isMember (t :: rest) = d.counted isMember rest :=
  List.filter_cons_of_neg (by simp [h])

theorem counted_cons {t : ParseTree} (rest : List ParseTree) (h : d.isStray isMember t = false) :
    d.counted isMember (t :: rest) = t :: d.counted isMember rest :=
  List.filter_cons_of_pos (by simp [h])

/-- The attributes since the last element are those since the last member, if none waits in front of
a child that is passed over. -/
theorem attributesBefore_counted {before after : List ParseTree}
    (h : d.Clear isMember d.attributesBefore (before ++ after)) :
    d.attributesBefore (d.counted isMember before) = d.attributesBefore before := by
  induction before using List.reverseRecOn generalizing after with
  | nil => rfl
  | append_singleton before t ih =>
      rw [List.append_assoc] at h
      have hbefore := ih h
      by_cases hstray : d.isStray isMember t = true
      · have helement : d.isElement t = true := (Bool.and_eq_true_iff.mp hstray).1
        rw [counted_concat_of_stray hstray, hbefore, attributesBefore_concat_of_element helement]
        exact h before t after rfl hstray
      rw [counted_concat (by simpa using hstray)]
      by_cases hattribute : d.isAttribute t = true
      · rw [attributesBefore_concat_of_attribute hattribute,
          attributesBefore_concat_of_attribute hattribute, hbefore]
      have hattribute : d.isAttribute t = false := by simpa using hattribute
      by_cases hcomment : d.isComment t = true
      · rw [attributesBefore_concat_of_comment hattribute hcomment,
          attributesBefore_concat_of_comment hattribute hcomment, hbefore]
      · have helement := isElement_iff.mpr ⟨hattribute, by simpa using hcomment⟩
        rw [attributesBefore_concat_of_element helement,
          attributesBefore_concat_of_element helement]

theorem isMember_of_mem_counted {parts : List ParseTree} {t : ParseTree}
    (ht : t ∈ d.counted isMember parts) (h : d.isElement t = true) : isMember t = true := by
  have hcounted := (List.mem_filter.mp ht).2
  simpa [isStray, h] using hcounted

theorem piece?_congr {nodes others : List Node} {t : ParseTree}
    (h : d.isElement t = true → nodes = others) : d.piece? nodes t = d.piece? others t := by
  rw [piece?, piece?]
  split_ifs with hattribute hcomment
  · rfl
  · rfl
  · rfl
  · rw [h (isElement_iff.mpr ⟨by simpa using hattribute, by simpa using hcomment⟩)]

/-- Only the nodes of elements matter. -/
theorem pieces_congr {share other : List ParseTree → ParseTree → List Node}
    {seen parts : List ParseTree}
    (h : ∀ before, ∀ t ∈ parts, d.isElement t = true → share before t = other before t) :
    d.pieces share seen parts = d.pieces other seen parts := by
  refine List.filterMap_congr fun child hchild => piece?_congr fun helement => ?_
  obtain ⟨between, after, -, rfl⟩ := mem_alongside hchild
  exact h child.1 child.2 (by simp) helement

theorem contribution_nil (seen : List ParseTree) {t : ParseTree} (h : d.isElement t = true) :
    d.contribution seen [] t = [] := by
  obtain ⟨hattribute, hcomment⟩ := isElement_iff.mp h
  simp only [contribution, hattribute, hcomment]
  cases joined? (d.docsBefore seen) <;> rfl

theorem contribution_of_not_isElement (seen : List ParseTree) (nodes others : List Node)
    {t : ParseTree} (h : d.isElement t = false) :
    d.contribution seen nodes t = d.contribution seen others t := by
  rw [contribution, contribution]
  split_ifs with hattribute hcomment
  · rfl
  · rfl
  · rfl
  · rw [isElement_iff.mpr ⟨by simpa using hattribute, by simpa using hcomment⟩] at h
    cases h

section Share

variable {share : List ParseTree → ParseTree → List Node}
  (hstray : ∀ before t, isMember t = false → share before t = [])

include hstray

/-- Passing over a child does not matter, if nothing waits in front of it and it does not matter for
the nodes of the members behind it. -/
theorem arrangeFrom_pieces_counted {seen rest : List ParseTree}
    (hdocs : d.Clear isMember d.docsBefore (seen ++ rest))
    (hshare : ∀ before t after, seen ++ rest = before ++ t :: after → isMember t = true →
      share (d.counted isMember before) t = share before t) :
    arrangeFrom (joined? (d.docsBefore seen))
        (d.pieces share (d.counted isMember seen) (d.counted isMember rest)) =
      arrangeFrom (joined? (d.docsBefore seen)) (d.pieces share seen rest) := by
  induction rest generalizing seen with
  | nil => rfl
  | cons t rest ih =>
      have hrow : seen ++ t :: rest = seen ++ [t] ++ rest := by simp
      have hnext := @ih (seen ++ [t]) (hrow ▸ hdocs) (hrow ▸ hshare)
      by_cases hpassed : d.isStray isMember t = true
      · have hparts := Bool.and_eq_true_iff.mp hpassed
        have hmember : isMember t = false := by simpa using hparts.2
        rw [counted_concat_of_stray hpassed, docsBefore_concat_of_element hparts.1] at hnext
        rw [pieces_cons, arrangeFrom_piece?, hstray seen t hmember, contribution_nil seen hparts.1,
          docsBefore_concat_of_element hparts.1, hdocs seen t rest rfl hpassed, List.nil_append,
          ← hnext, counted_cons_of_stray rest hpassed]
      · have hcounted : d.isStray isMember t = false := by simpa using hpassed
        have hsame : d.contribution seen (share (d.counted isMember seen) t) t =
            d.contribution seen (share seen t) t := by
          by_cases hmember : isMember t = true
          · rw [hshare seen t rest rfl hmember]
          · apply contribution_of_not_isElement
            simpa [isStray, hmember] using hcounted
        rw [counted_concat hcounted] at hnext
        rw [counted_cons rest hcounted, pieces_cons, pieces_cons, arrangeFrom_piece?,
          arrangeFrom_piece?, hsame, hnext]

end Share

/-- The nodes that stand where members stand take doc comments and attributes since the last element
and no others. -/
def TakesOwn (d : Dialect) (isMember : ParseTree → Bool) (source : List Char)
    (parts : List ParseTree) (nodes : List Node) : Prop :=
  ∀ before t after, parts = before ++ t :: after → isMember t = true →
    ∀ node ∈ nodes, node.location = t.location source →
      (∀ doc, node.doc? = some doc → Merges (d.docsBefore before) doc) ∧
      node.label.decorators ⊆ d.attributesBefore before

end Dialect

namespace Rust

variable {source : List Char}

/-! ## Fields -/

/-- Whether a child of a struct declares a field. -/
def isField (t : ParseTree) : Bool :=
  t.kind == "field_declaration"

/-- The nodes of a child of a struct, given those before it; only fields become any. -/
def fieldShare (source : List Char) (before : List ParseTree) (t : ParseTree) : List Node :=
  if isField t then (field? source ⟨(dialect source).attributesBefore before, t⟩).toList else []

theorem fieldShare_fresh (before : List ParseTree) (t : ParseTree) :
    ∀ node ∈ fieldShare source before t,
      (dialect source).Fresh ((dialect source).attributesBefore before) node :=
  forall_mem_ite (forall_mem_toList_map fun _ _ => ⟨rfl, nofun, fun _ => rfl⟩)
    (List.forall_mem_nil _)

theorem fieldShare_of_not_isField (before : List ParseTree) (t : ParseTree)
    (h : isField t = false) : fieldShare source before t = [] := by
  rw [fieldShare, h]
  rfl

theorem namedFields_eq_arrange (body : ParseTree) :
    namedFields source body =
      arrange ((dialect source).pieces (fieldShare source) []
        ((dialect source).counted isField body.parts)) := by
  have hcounted : (dialect source).counted isField body.parts = body.parts.filter fun part =>
      isAttribute part || isComment part || part.kind == "field_declaration" := by
    refine List.filter_congr fun t _ => ?_
    simp [Dialect.isStray, Dialect.isElement, isField]
  rw [namedFields, pieces_itemsOf, ← hcounted]
  congr 1
  apply Dialect.pieces_congr
  intro before t ht helement
  rw [fieldShare, if_pos (Dialect.isMember_of_mem_counted ht helement)]

/-- Fields take the doc comments and attributes since the field before them. -/
theorem laidOut_counted_namedFields (body : ParseTree) :
    (dialect source).LaidOut (fieldShare source) [] ((dialect source).counted isField body.parts)
      (namedFields source body) := by
  rw [namedFields_eq_arrange]
  exact Dialect.laidOut_arrange fieldShare_fresh _

theorem laidOut_namedFields {body : ParseTree}
    (hdocs : (dialect source).Clear isField (dialect source).docsBefore body.parts)
    (hattributes : (dialect source).Clear isField (dialect source).attributesBefore body.parts) :
    (dialect source).LaidOut (fieldShare source) [] body.parts (namedFields source body) := by
  have hsame := @Dialect.arrangeFrom_pieces_counted (dialect source) isField (fieldShare source)
    fieldShare_of_not_isField [] body.parts hdocs fun before t after hparts hfield => by
      rw [List.nil_append] at hparts
      rw [fieldShare, fieldShare, Dialect.attributesBefore_counted (hparts ▸ hattributes)]
  rw [namedFields_eq_arrange, arrange]
  refine hsame ▸ ?_
  exact Dialect.laidOut_arrange fieldShare_fresh body.parts

/-! ## Variants -/

/-- Whether a child of an enum declares a member. -/
def isVariant (t : ParseTree) : Bool :=
  t.kind == "enum_variant"

/-- The nodes of a child of an enum; only variants become any. -/
def variantShare (source enumName : List Char) (t : ParseTree) : List Node :=
  if isVariant t then (variant? source enumName t).toList else []

/-- How the children of an enum are told apart. The members of an enum have no decorators. -/
def enumDialect (source : List Char) : Dialect :=
  { dialect source with decorated := [], comment_not_decorated := List.not_mem_nil }

theorem variantShare_fresh (enumName : List Char) (attributes : List String) (t : ParseTree) :
    ∀ node ∈ variantShare source enumName t, (enumDialect source).Fresh attributes node :=
  forall_mem_ite (forall_mem_toList_map fun _ _ => ⟨rfl, nofun, nofun⟩) (List.forall_mem_nil _)

theorem variantShare_of_not_isVariant (enumName : List Char) (t : ParseTree)
    (h : isVariant t = false) : variantShare source enumName t = [] := by
  rw [variantShare, h]
  rfl

theorem piece?_of_isComment (nodes : List Node) {t : ParseTree} (h : isComment t = true) :
    (enumDialect source).piece? nodes t = some (commentPiece source t) := by
  have hattribute : isAttribute t = false := by
    by_contra hattribute
    have hcomment := (dialect source).isComment_of_isAttribute t (by simpa using hattribute)
    rw [dialect_isComment, h] at hcomment
    cases hcomment
  change (if isAttribute t then none else if isComment t then _ else _) = _
  rw [hattribute, if_neg Bool.false_ne_true, if_pos h, commentPiece]
  exact (apply_ite some _ _ _).symm

theorem variants_eq_arrange (enumName : List Char) {t body : ParseTree}
    (h : t.child? "body" = some body) :
    variants source enumName t =
      arrange ((enumDialect source).pieces (fun _ part => variantShare source enumName part) []
        ((enumDialect source).counted isVariant body.parts)) := by
  rw [variants, h]
  dsimp only
  rw [Dialect.pieces_eq_filterMap, Dialect.counted, List.filterMap_filter, ← List.filterMap_eq_map,
    List.filterMap_filter]
  congr 1
  refine List.filterMap_congr fun part _ => ?_
  by_cases hcomment : isComment part = true
  · have hstray : (enumDialect source).isStray isVariant part = false := by
      simp [Dialect.isStray, Dialect.isElement, enumDialect, hcomment]
    rw [hstray, piece?_of_isComment _ hcomment]
    simp [hcomment]
  by_cases hattribute : isAttribute part = true
  · -- Attributes are passed over in silence.
    have hkind : part.kind = "attribute_item" := by simpa [isAttribute] using hattribute
    simp [Dialect.piece?, enumDialect, hattribute, isComment, hkind]
  by_cases hvariant : isVariant part = true
  · have hkind : part.kind = "enum_variant" := by simpa [isVariant] using hvariant
    simp [Dialect.piece?, Dialect.isStray, enumDialect, hattribute, hcomment, hvariant,
      variantShare, hkind]
  · have hkind : ¬ part.kind = "enum_variant" := by simpa [isVariant] using hvariant
    simp [Dialect.isStray, Dialect.isElement, enumDialect, hattribute, hcomment, hvariant, hkind]

/-- Variants take the doc comments since the variant before them. -/
theorem laidOut_counted_variants (enumName : List Char) {t body : ParseTree}
    (h : t.child? "body" = some body) :
    (enumDialect source).LaidOut (fun _ part => variantShare source enumName part) []
      ((enumDialect source).counted isVariant body.parts) (variants source enumName t) := by
  rw [variants_eq_arrange enumName h]
  exact Dialect.laidOut_arrange (fun _ => variantShare_fresh enumName _) _

theorem laidOut_variants (enumName : List Char) {t body : ParseTree}
    (h : t.child? "body" = some body)
    (hdocs : (enumDialect source).Clear isVariant (enumDialect source).docsBefore body.parts) :
    (enumDialect source).LaidOut (fun _ part => variantShare source enumName part) [] body.parts
      (variants source enumName t) := by
  have hsame := @Dialect.arrangeFrom_pieces_counted (enumDialect source) isVariant
    (fun _ part => variantShare source enumName part)
    (fun _ => variantShare_of_not_isVariant enumName) [] body.parts hdocs fun _ _ _ _ _ => rfl
  rw [variants_eq_arrange enumName h, arrange]
  refine hsame ▸ ?_
  exact Dialect.laidOut_arrange (fun _ => variantShare_fresh enumName _) body.parts

theorem decorators_variants (enumName : List Char) (t : ParseTree) :
    ∀ node ∈ variants source enumName t, node.label.decorators = [] := by
  intro node hnode
  rw [variants] at hnode
  split at hnode
  · -- A piece is a comment or holds a variant, and a doc comment does not add decorators.
    have hvariant (part : ParseTree) : ∀ node ∈ (variant? source enumName part).toList,
        node.label.decorators = [] := forall_mem_toList_map fun _ _ => rfl
    have hpiece {part : ParseTree} {node : Node}
        (hnode : node ∈ (if isComment part then commentPiece source part
          else .element (variant? source enumName part).toList).nodes) :
        node.label.decorators = [] := by
      split at hnode
      · rw [commentPiece] at hnode
        split at hnode
        · cases hnode
        · rw [List.mem_singleton.mp hnode]
          rfl
      · exact hvariant part node hnode
    cases arranged_of_mem_arrange hnode with
    | plain hmem hnode =>
        obtain ⟨part, -, rfl⟩ := List.mem_map.mp hmem
        exact hpiece hnode
    | documented hmem hnode _ =>
        obtain ⟨part, -, rfl⟩ := List.mem_map.mp hmem
        rw [Node.decorators_withDoc]
        exact hpiece hnode
    | standalone _ => rfl
  · cases hnode

/-! ## Fields by position -/

theorem bare_tupleFieldsFrom (position : Nat) (visibility : Visibility) (parts : List ParseTree) :
    ∀ node ∈ tupleFieldsFrom source position visibility parts,
      node.doc? = none ∧ node.label.decorators = [] := by
  induction parts generalizing position visibility with
  | nil => exact List.forall_mem_nil _
  | cons t rest ih =>
      rw [tupleFieldsFrom]
      split_ifs
      · exact ih _ _
      · exact ih _ _
      · exact List.forall_mem_cons.mpr ⟨⟨rfl, rfl⟩, ih _ _⟩

/-! ## Bodies -/

/-- Members take the doc comments and attributes since the member before them; the members of an
enum take no attributes, and the fields of a tuple struct take neither. If nothing waits in front of
a child that is passed over, the bodies are laid out like others: members take what stands since the
last element and nothing else. -/
theorem members_laidOut (source : List Char) :
    (∀ body,
      (dialect source).LaidOut (fieldShare source) []
        ((dialect source).counted isField body.parts) (namedFields source body) ∧
      ((dialect source).Clear isField (dialect source).docsBefore body.parts →
        (dialect source).Clear isField (dialect source).attributesBefore body.parts →
        (dialect source).LaidOut (fieldShare source) [] body.parts (namedFields source body))) ∧
    (∀ enumName t body, t.child? "body" = some body →
      (enumDialect source).LaidOut (fun _ part => variantShare source enumName part) []
        ((enumDialect source).counted isVariant body.parts) (variants source enumName t) ∧
      ((enumDialect source).Clear isVariant (enumDialect source).docsBefore body.parts →
        (enumDialect source).LaidOut (fun _ part => variantShare source enumName part) []
          body.parts (variants source enumName t)) ∧
      ∀ node ∈ variants source enumName t, node.label.decorators = []) ∧
    ∀ body, ∀ node ∈ tupleFields source body, node.doc? = none ∧ node.label.decorators = [] := by
  refine ⟨?_, ?_, ?_⟩
  · intro body
    exact ⟨laidOut_counted_namedFields body, laidOut_namedFields⟩
  · intro enumName t body hbody
    exact ⟨laidOut_counted_variants enumName hbody, laidOut_variants enumName hbody,
      decorators_variants enumName t⟩
  · intro body
    exact bare_tupleFieldsFrom 0 .priv body.parts

/-! ## A broken member -/

/-- A broken member with a doc comment and an attribute in front of it, and a member behind it. -/
def brokenSource : List Char :=
  "/// d\n#[a]\n@\nx: u8".toList

/-- The same with the broken member in front. -/
def mendedSource : List Char :=
  "@\n/// d\n#[a]\nx: u8".toList

/-- The doc comment and the attribute. -/
def remarksAt (start : Nat) : List ParseTree :=
  [⟨"line_comment", "", true, false, false, start, start + 6, []⟩,
   ⟨"attribute_item", "", true, false, false, start + 6, start + 10, []⟩]

/-- The broken member. -/
def brokenAt (start : Nat) : ParseTree :=
  ⟨"ERROR", "", true, false, true, start, start + 1, []⟩

/-- The last member, as a field. -/
def lastField : ParseTree :=
  ⟨"field_declaration", "", true, false, false, 13, 18,
    [⟨"field_identifier", "name", true, false, false, 13, 14, []⟩,
     ⟨"primitive_type", "type", true, false, false, 16, 18, []⟩]⟩

/-- The last member, as a variant. -/
def lastVariant : ParseTree :=
  ⟨"enum_variant", "", true, false, false, 13, 14,
    [⟨"identifier", "name", true, false, false, 13, 14, []⟩]⟩

/-- The body of a struct. -/
def fieldList (parts : List ParseTree) : ParseTree :=
  ⟨"field_declaration_list", "body", true, false, false, 0, 18, parts⟩

/-- The body of an enum. -/
def variantList (parts : List ParseTree) : ParseTree :=
  ⟨"enum_variant_list", "body", true, false, false, 0, 18, parts⟩

/-- An enum with a body. -/
def enumItem (parts : List ParseTree) : ParseTree :=
  ⟨"enum_item", "", true, false, false, 0, 18, [variantList parts]⟩

/-- With the broken member in front, the doc comment and the attribute are those of the field, and
the doc comment is that of the variant. -/
theorem members_laidOut_mended :
    ((dialect mendedSource).Clear isField (dialect mendedSource).docsBefore
        (brokenAt 0 :: (remarksAt 2 ++ [lastField])) ∧
      (dialect mendedSource).Clear isField (dialect mendedSource).attributesBefore
        (brokenAt 0 :: (remarksAt 2 ++ [lastField])) ∧
      (dialect mendedSource).LaidOut (fieldShare mendedSource) []
        (brokenAt 0 :: (remarksAt 2 ++ [lastField]))
        (namedFields mendedSource (fieldList (brokenAt 0 :: (remarksAt 2 ++ [lastField]))))) ∧
    (enumDialect mendedSource).Clear isVariant (enumDialect mendedSource).docsBefore
        (brokenAt 0 :: (remarksAt 2 ++ [lastVariant])) ∧
      (enumDialect mendedSource).LaidOut (fun _ part => variantShare mendedSource ['E'] part) []
        (brokenAt 0 :: (remarksAt 2 ++ [lastVariant]))
        (variants mendedSource ['E']
          (enumItem (brokenAt 0 :: (remarksAt 2 ++ [lastVariant])))) := by
  obtain ⟨hfields, hvariants, -⟩ := members_laidOut mendedSource
  have hdocs : (dialect mendedSource).Clear isField (dialect mendedSource).docsBefore
      (brokenAt 0 :: (remarksAt 2 ++ [lastField])) := Dialect.clear_of_alongside (by decide)
  have hattributes : (dialect mendedSource).Clear isField (dialect mendedSource).attributesBefore
      (brokenAt 0 :: (remarksAt 2 ++ [lastField])) := Dialect.clear_of_alongside (by decide)
  have henum : (enumDialect mendedSource).Clear isVariant (enumDialect mendedSource).docsBefore
      (brokenAt 0 :: (remarksAt 2 ++ [lastVariant])) := Dialect.clear_of_alongside (by decide)
  refine ⟨⟨hdocs, hattributes, ?_⟩, henum, ?_⟩
  · exact (hfields (fieldList (brokenAt 0 :: (remarksAt 2 ++ [lastField])))).2 hdocs hattributes
  · exact (hvariants ['E'] (enumItem (brokenAt 0 :: (remarksAt 2 ++ [lastVariant])))
      (variantList (brokenAt 0 :: (remarksAt 2 ++ [lastVariant]))) rfl).2.1 henum

/-- A field takes the doc comment and the attribute of the broken member before it. -/
theorem namedFields_broken :
    namedFields brokenSource (fieldList (remarksAt 0 ++ [brokenAt 11, lastField])) =
      [.leaf (.field
        { name := "x", visibility := .priv, decorators := ["#[a]"]
          type := some (TypeExpr.parse "u8".toList)
          doc := some ⟨"/// d", .doc, { startLine := 1, endLine := 2, endByte := 6 }⟩
          location := lastField.location brokenSource })] :=
  rfl

/-- A variant takes the doc comment of the broken member before it. -/
theorem variants_broken :
    variants brokenSource ['E'] (enumItem (remarksAt 0 ++ [brokenAt 11, lastVariant])) =
      [.leaf (.field
        { Field.ofEnum "x" "E" (lastVariant.location brokenSource) with
          doc := some ⟨"/// d", .doc, { startLine := 1, endLine := 2, endByte := 6 }⟩ })] :=
  rfl

/-- What waits in front of a broken member is not dropped with it. -/
theorem members_take_across :
    (¬ ∀ source body, (dialect source).TakesOwn isField source body.parts
      (namedFields source body)) ∧
    ¬ ∀ source enumName t body, t.child? "body" = some body →
      (enumDialect source).TakesOwn isVariant source body.parts (variants source enumName t) := by
  refine ⟨?_, ?_⟩
  · intro hall
    have hfields := hall brokenSource (fieldList (remarksAt 0 ++ [brokenAt 11, lastField]))
      (remarksAt 0 ++ [brokenAt 11]) lastField [] rfl rfl
    rw [namedFields_broken] at hfields
    exact not_merges_nil ((hfields _ List.mem_cons_self rfl).1 _ rfl)
  · intro hall
    have hvariants := hall brokenSource ['E']
      (enumItem (remarksAt 0 ++ [brokenAt 11, lastVariant])) _ rfl
      (remarksAt 0 ++ [brokenAt 11]) lastVariant [] rfl rfl
    rw [variants_broken] at hvariants
    exact not_merges_nil ((hvariants _ List.mem_cons_self rfl).1 _ rfl)

end Rust

end Precis
