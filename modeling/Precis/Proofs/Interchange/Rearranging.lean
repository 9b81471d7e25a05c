import Precis.Proofs.Interchange.Overlooking
import Precis.Proofs.Interchange.RoundTrip
import Precis.Proofs.Json.Recognition
import Mathlib.Logic.Relation

/-! # Altered texts mean the same

Every part of an outline overlooks the alterations of its shape. A node names its kind among its
members; which of them comes first does not matter, since the others are kept until the kind is
known. -/

namespace Precis

open Json

variable {depth : Nat} {shape : Shape}

/-! ## Parts of declarations -/

theorem Location.overlooks : Overlooks (.record .location) (Location.decode depth) :=
  Record.overlooks_decoder fun _ =>
    (Record.fits_pure _)
      |>.add overlooks_asIndex
      |>.add overlooks_asIndex
      |>.add overlooks_asIndex
      |>.add overlooks_asIndex
      |>.add overlooks_asIndex
      |>.add overlooks_asIndex

theorem ModifierSet.overlooks (stage : Stage) :
    Overlooks (.list .plain) (ModifierSet.decode stage depth) := by
  intro item item' s halters h
  obtain ⟨ms, hms, rfl⟩ := map_eq_ok.mp h
  have hlist : Overlooks (.list .plain) (asList (Modifier.decode stage) depth) :=
    overlooks_asList fun _ _ => overlooks_asChoice
  exact map_eq_ok.mpr ⟨ms, hlist item item' ms halters hms, rfl⟩

theorem TypeExpr.overlooks : Overlooks (.record .typeExpr) (TypeExpr.decode depth) := by
  induction depth using Nat.strongRecOn with
  | ind depth ih =>
      intro item item' t halters ht
      cases depth with
      | zero => cases ht
      | succ d =>
          have hargs : Overlooks (.list (.record .typeExpr)) (asList TypeExpr.decode d) :=
            overlooks_asList fun d' hd' => ih d' (by omega)
          have hfits : (record (asList TypeExpr.decode d) d).Fits Schema.typeExpr.members :=
            (Record.fits_pure _)
              |>.add overlooks_asText
              |>.add hargs
              |>.add overlooks_asFlag
          rw [decode_eq] at ht ⊢
          exact hfits.overlooks item item' t halters ht

theorem TypeExpr.overlooks_list :
    Overlooks (.list (.record .typeExpr)) (asList TypeExpr.decode depth) :=
  overlooks_asList fun _ _ => overlooks

theorem TypeParameter.overlooks :
    Overlooks (.record .typeParameter) (TypeParameter.decode depth) :=
  Record.overlooks_decoder fun _ =>
    (Record.fits_pure _)
      |>.add overlooks_asText
      |>.add TypeExpr.overlooks_list
      |>.add TypeExpr.overlooks.option

theorem TypeParameter.overlooks_list :
    Overlooks (.list (.record .typeParameter)) (asList TypeParameter.decode depth) :=
  overlooks_asList fun _ _ => overlooks

theorem Parameter.overlooks : Overlooks (.record .parameter) (Parameter.decode depth) :=
  Record.overlooks_decoder fun _ =>
    (Record.fits_pure _)
      |>.add overlooks_asText
      |>.add TypeExpr.overlooks.option
      |>.add overlooks_asText.option
      |>.add overlooks_asFlag
      |>.add overlooks_asFlag

theorem ImportedName.overlooks :
    Overlooks (.record .importedName) (ImportedName.decode depth) :=
  Record.overlooks_decoder fun _ =>
    (Record.fits_pure _)
      |>.add overlooks_asText
      |>.add overlooks_asText.option

theorem Comment.fits (stage : Stage) : (Comment.record stage depth).Fits Schema.comment.members :=
  (Record.fits_pure _)
    |>.add overlooks_asText
    |>.add overlooks_asChoice
    |>.add Location.overlooks

theorem Comment.overlooks (stage : Stage) :
    Overlooks (.record .comment) (Comment.decode stage depth) :=
  Record.overlooks_decoder fun _ => Comment.fits stage

/-! ## Nodes -/

theorem Import.fits : (Import.record depth).Fits Schema.imported.members :=
  (Record.fits_pure _)
    |>.add overlooks_asText
    |>.add overlooks_asChoice
    |>.add (overlooks_asList fun _ _ => ImportedName.overlooks)
    |>.add Location.overlooks

theorem Function.fits : (Function.record depth).Fits Schema.function.members :=
  (Record.fits_pure _)
    |>.add overlooks_asText
    |>.add overlooks_asChoice
    |>.add (ModifierSet.overlooks .kept)
    |>.add (overlooks_asList fun _ _ => overlooks_asText)
    |>.add TypeParameter.overlooks_list
    |>.add (overlooks_asList fun _ _ => Parameter.overlooks)
    |>.add TypeExpr.overlooks.option
    |>.add TypeExpr.overlooks_list
    |>.add overlooks_asText.option
    |>.add (Comment.overlooks .kept).option
    |>.add Location.overlooks

theorem Field.fits : (Field.record depth).Fits Schema.field.members :=
  (Record.fits_pure _)
    |>.add overlooks_asText
    |>.add overlooks_asChoice
    |>.add (ModifierSet.overlooks .kept)
    |>.add (overlooks_asList fun _ _ => overlooks_asText)
    |>.add TypeExpr.overlooks.option
    |>.add overlooks_asText.option
    |>.add overlooks_asFlag
    |>.add (Comment.overlooks .kept).option
    |>.add Location.overlooks

theorem TypeAlias.fits : (TypeAlias.record depth).Fits Schema.typeAlias.members :=
  (Record.fits_pure _)
    |>.add overlooks_asText
    |>.add overlooks_asChoice
    |>.add TypeParameter.overlooks_list
    |>.add TypeExpr.overlooks
    |>.add (Comment.overlooks .kept).option
    |>.add Location.overlooks

theorem Problem.fits : (Problem.record depth).Fits Schema.problem.members :=
  (Record.fits_pure _)
    |>.add overlooks_asText
    |>.add overlooks_asChoice
    |>.add overlooks_asText.option
    |>.add Location.overlooks

section Branches

variable {children : Reading → Except Fault (List Node)}
  (hchildren : Overlooks (.list .node) children)

include hchildren

theorem FileHead.fits (stage : Stage) :
    (FileHead.record children depth stage).Fits Schema.file.members :=
  (Record.fits_pure _)
    |>.add overlooks_asText
    |>.add overlooks_asChoice
    |>.add Location.overlooks
    |>.add hchildren

theorem PackageHead.fits : (PackageHead.record children depth).Fits Schema.package.members :=
  (Record.fits_pure _)
    |>.add overlooks_asText
    |>.add Location.overlooks
    |>.add hchildren

theorem TypeHead.fits (kind : TypeKind) :
    (TypeHead.record children depth kind).Fits Schema.declaration.members :=
  (Record.fits_pure _)
    |>.add overlooks_asText
    |>.add overlooks_asChoice
    |>.add (ModifierSet.overlooks .kept)
    |>.add (overlooks_asList fun _ _ => overlooks_asText)
    |>.add TypeParameter.overlooks_list
    |>.add TypeExpr.overlooks_list
    |>.add TypeExpr.overlooks_list
    |>.add TypeExpr.overlooks.option
    |>.add (Comment.overlooks .kept).option
    |>.add Location.overlooks
    |>.add hchildren

theorem Node.fits (kind : NodeKind) :
    (Node.record children depth kind).Fits kind.schema.members := by
  cases kind with
  | file => exact (FileHead.fits hchildren .kept).map _
  | package => exact (PackageHead.fits hchildren).map _
  | type kind => exact (TypeHead.fits hchildren kind).map _
  | imported => exact Import.fits.map _
  | function => exact Function.fits.map _
  | field => exact Field.fits.map _
  | typeAlias => exact TypeAlias.fits.map _
  | comment => exact (Comment.fits .kept).map _
  | problem => exact Problem.fits.map _

end Branches

namespace Node

/-! ### The kind among the members -/

/-- One of the members names the kind, and the others are kept. -/
inductive Named (kindOf : Reading → Except Fault NodeKind) (depth : Nat) (kind : NodeKind) :
    List (Option String × Reading) → List (Option String × Reading) → Prop where
  | intro (before after : List (Option String × Reading)) {item : Reading}
      (hkind : kindOf item = .ok kind) (hkept : ∀ m ∈ before ++ after, Kept depth m) :
      Named kindOf depth kind (before ++ (some "kind", item) :: after) (before ++ after)

section Named

variable {kindOf : Reading → Except Fault NodeKind} {kind : NodeKind}
  {members members' others : List (Option String × Reading)}

theorem Named.cons {m : Option String × Reading} (hm : Kept depth m)
    (h : Named kindOf depth kind members others) :
    Named kindOf depth kind (m :: members) (m :: others) := by
  cases h with
  | intro before after hkind hkept =>
      exact .intro (m :: before) after hkind (List.forall_mem_cons.mpr ⟨hm, hkept⟩)

theorem Named.of_cons {m : Option String × Reading}
    (h : Named kindOf depth kind (m :: members) others) :
    (∃ item, m = (some "kind", item) ∧ kindOf item = .ok kind) ∨
      Kept depth m ∧
        ∃ others', others = m :: others' ∧ Named kindOf depth kind members others' := by
  generalize hall : m :: members = all at h
  cases h with
  | @intro before after item hkind hkept =>
      cases before with
      | nil =>
          obtain ⟨rfl, rfl⟩ := List.cons_eq_cons.mp hall
          exact .inl ⟨item, rfl, hkind⟩
      | cons first before =>
          obtain ⟨rfl, rfl⟩ := List.cons_eq_cons.mp hall
          obtain ⟨hm, hrest⟩ := List.forall_mem_cons.mp hkept
          exact .inr ⟨hm, before ++ after, rfl, .intro before after hkind hrest⟩

theorem Named.perm (h : Named kindOf depth kind members others) (hperm : members.Perm members') :
    ∃ others', Named kindOf depth kind members' others' ∧ others.Perm others' := by
  cases h with
  | @intro before after item hkind hkept =>
      have hmem : (some "kind", item) ∈ members' := hperm.mem_iff.mp (by simp)
      obtain ⟨before', after', rfl⟩ := List.append_of_mem hmem
      have hothers : (before ++ after).Perm (before' ++ after') :=
        ((List.perm_middle.symm.trans hperm).trans List.perm_middle).cons_inv
      exact ⟨_, .intro before' after' hkind fun m hm => hkept m (hothers.mem_iff.mpr hm), hothers⟩

theorem kept_of_splitKind {found : Option NodeKind}
    (h : splitKind kindOf depth (some kind) members = .ok (found, others)) :
    found = some kind ∧ others = members ∧ ∀ m ∈ members, Kept depth m := by
  induction members generalizing others with
  | nil =>
      cases h
      simp
  | cons m rest ih =>
      obtain ⟨_ | key, item⟩ := m
      · cases h
      · rw [splitKind] at h
        split_ifs at h with hkey hstorable
        · obtain ⟨⟨found', others'⟩, hrest, heq⟩ := map_eq_ok.mp h
          cases heq
          obtain ⟨rfl, rfl, hkept⟩ := ih hrest
          exact ⟨rfl, rfl, List.forall_mem_cons.mpr ⟨⟨⟨key, rfl, hkey⟩, hstorable⟩, hkept⟩⟩

theorem splitKind_eq_ok :
    splitKind kindOf depth none members = .ok (some kind, others) ↔
      Named kindOf depth kind members others := by
  constructor
  · intro h
    induction members generalizing others with
    | nil => cases h
    | cons m rest ih =>
        obtain ⟨_ | key, item⟩ := m
        · cases h
        · rw [splitKind] at h
          split_ifs at h with hkey hstorable
          · subst hkey
            split at h
            next found hfound =>
              obtain ⟨heq, rfl, hkept⟩ := kept_of_splitKind h
              cases heq
              exact .intro [] others hfound hkept
            next => cases h
          · obtain ⟨⟨found, others'⟩, hrest, heq⟩ := map_eq_ok.mp h
            cases heq
            exact (ih hrest).cons ⟨⟨key, rfl, hkey⟩, hstorable⟩
  · intro h
    cases h with
    | @intro before after item hkind hkept =>
        induction before with
        | nil => simpa [splitKind, hkind] using splitKind_kept hkept
        | cons m before ih =>
            obtain ⟨⟨⟨key, hkey, hne⟩, hstorable⟩, hrest⟩ := List.forall_mem_cons.mp hkept
            obtain ⟨_, value⟩ := m
            subst hkey
            simp [splitKind, hne, hstorable, ih hrest, Except.map]

/-- Both ways to look up a kind agree on the kind that a node names. -/
theorem Named.kindOf?_eq (hkindOf : ∀ item kind, kindOf item = .ok kind →
    kindByPosition item = .ok kind) (h : Named kindOf depth kind members others) (closed : Bool) :
    kindOf? (.obj members closed) = some kind := by
  cases h with
  | @intro before after item hkind hkept =>
      have hlookup :
          (before ++ (some "kind", item) :: after).lookup (some "kind") = some item := by
        refine List.lookup_eq_some_iff.mpr ⟨before, after, rfl, fun m hm => ?_⟩
        obtain ⟨⟨key, hkey, hne⟩, -⟩ := hkept m (List.mem_append_left after hm)
        simpa [hkey] using hne.symm
      simp [kindOf?, hlookup, hkindOf item kind hkind, Except.toOption]

end Named

theorem not_alters_of_kind {item item' : Reading} {kind : NodeKind}
    (h : kindByPosition item = .ok kind) : ¬ Alters shape item item' := by
  intro halters
  cases halters <;> cases h

/-! ### Nodes as objects and as arrays -/

section Decoding

variable {kindOf : Reading → Except Fault NodeKind}
  {children : Reading → Except Fault (List Node)} {node : Node} {closed : Bool}

theorem decodeWith_obj_eq_ok {members : List (Option String × Reading)} :
    decodeWith kindOf children depth (.obj members closed) = .ok node ↔
      closed = true ∧ ∃ kind others, Named kindOf depth kind members others ∧
        (record children depth kind).ofMembers others = .ok node := by
  simp only [decodeWith, bind_eq_ok, Prod.exists, ← splitKind_eq_ok]
  constructor
  · rintro ⟨found, others, hsplit, hnode⟩
    split at hnode
    next hclosed =>
      cases found with
      | none => cases hnode
      | some kind => exact ⟨hclosed, kind, others, hsplit, hnode⟩
    next => cases hnode
  · rintro ⟨rfl, kind, others, hsplit, hnode⟩
    exact ⟨some kind, others, hsplit, hnode⟩

theorem decodeWith_arr_eq_ok {items : List Reading} :
    decodeWith kindOf children depth (.arr items closed) = .ok node ↔
      closed = true ∧ ∃ first rest kind, items = first :: rest ∧ kindOf first = .ok kind ∧
        storableItems depth rest = true ∧
        (record children depth kind).ofItems rest = .ok (node, []) := by
  cases items with
  | nil => cases closed <;> simp [decodeWith]
  | cons first rest =>
      simp only [decodeWith, bind_eq_ok]
      constructor
      · rintro ⟨kind, hkind, hnode⟩
        split at hnode
        next hrest =>
          obtain ⟨hstorable, hclosed⟩ := Bool.and_eq_true_iff.mp hrest
          have hitems := (Record.ofArray_eq_ok.mp hnode).2
          exact ⟨hclosed, first, rest, kind, rfl, hkind, hstorable, hitems⟩
        next => cases hnode
      · rintro ⟨rfl, _, _, kind, ⟨rfl, rfl⟩, hkind, hstorable, hitems⟩
        refine ⟨kind, hkind, ?_⟩
        rw [if_pos (by simp [hstorable])]
        exact Record.ofArray_eq_ok.mpr ⟨rfl, hitems⟩

variable (hkindOf : ∀ item kind, kindOf item = .ok kind → kindByPosition item = .ok kind)
  (hchildren : Overlooks (.list .node) children)

include hkindOf hchildren

theorem decodeWith_insert {key : String} {item : Reading} {fields : List (String × Shape)}
    {members : List (Option String × Reading)}
    (hfields : Shape.node.fields? (.obj members closed) = some fields)
    (hkey : key ∉ fields.map Prod.fst) (hitem : IsRemark item)
    (h : decodeWith kindOf children depth (.obj members closed) = .ok node) :
    decodeWith kindOf children depth (.obj ((some key, item) :: members) closed) = .ok node := by
  obtain ⟨hclosed, kind, others, hnamed, hothers⟩ := decodeWith_obj_eq_ok.mp h
  obtain rfl : ("kind", .plain) :: kind.schema.members = fields := by
    simpa [Shape.fields?, hnamed.kindOf?_eq hkindOf] using hfields
  obtain ⟨hne, hkey⟩ := not_or.mp (mt List.mem_cons.mpr hkey)
  have hkept : Kept depth (some key, item) := ⟨⟨key, rfl, hne⟩, hitem.storable depth⟩
  have hothers' := (fits hchildren kind).ofMembers_cons hkey hitem.whole hothers
  exact decodeWith_obj_eq_ok.mpr ⟨hclosed, kind, _, hnamed.cons hkept, hothers'⟩

theorem decodeWith_alter_member {key : Option String} {item item' : Reading}
    {before after : List (Option String × Reading)}
    (halters :
      Alters (Shape.node.ofMember (.obj (before ++ (key, item) :: after) closed) key) item item')
    (h : decodeWith kindOf children depth (.obj (before ++ (key, item) :: after) closed) =
      .ok node) :
    decodeWith kindOf children depth (.obj (before ++ (key, item') :: after) closed) =
      .ok node := by
  -- The altered member is taken to come first, and put back into its place in the end.
  obtain ⟨hclosed, kind, others, hnamed, hothers⟩ := decodeWith_obj_eq_ok.mp h
  obtain ⟨front, hfront, hperm⟩ := hnamed.perm List.perm_middle
  rcases hfront.of_cons with ⟨_, heq, hkind⟩ | ⟨hkept, rest, rfl, hrest⟩
  · cases heq
    exact absurd halters (not_alters_of_kind (hkindOf _ _ hkind))
  · obtain ⟨⟨name, hname, hne⟩, hstorable⟩ := hkept
    subst hname
    rw [Shape.ofMember_node (hnamed.kindOf?_eq hkindOf closed) hne] at halters
    have hkept : Kept depth (some name, item') := ⟨⟨name, rfl, hne⟩, halters.storable hstorable⟩
    obtain ⟨others', hnamed', hperm'⟩ := (hrest.cons hkept).perm List.perm_middle.symm
    have hfits : (record children depth kind).Fits kind.schema.members := fits hchildren kind
    have haltered := hfits.ofMembers_alter halters (hfits.ofMembers_perm hperm hothers)
    have hothers' := hfits.ofMembers_perm hperm' haltered
    exact decodeWith_obj_eq_ok.mpr ⟨hclosed, kind, others', hnamed', hothers'⟩

theorem decodeWith_alter_element {item item' : Reading} {before after : List Reading}
    (halters : Alters (Shape.node.ofElement (.arr (before ++ item :: after) closed) before.length)
      item item')
    (h : decodeWith kindOf children depth (.arr (before ++ item :: after) closed) = .ok node) :
    decodeWith kindOf children depth (.arr (before ++ item' :: after) closed) = .ok node := by
  obtain ⟨hclosed, first, rest, kind, hitems, hkind, hstorable, hrest⟩ :=
    decodeWith_arr_eq_ok.mp h
  cases before with
  | nil =>
      obtain ⟨rfl, rfl⟩ := List.cons_eq_cons.mp hitems
      exact absurd halters (not_alters_of_kind (hkindOf _ _ hkind))
  | cons head before =>
      rw [List.cons_append] at hitems
      obtain ⟨rfl, rfl⟩ := List.cons_eq_cons.mp hitems
      have hkind? : kindOf? (.arr (head :: before ++ item :: after) closed) = some kind := by
        simp [kindOf?, hkindOf _ _ hkind, Except.toOption]
      rw [List.length_cons, Shape.ofElement_node hkind?] at halters
      have hkept : storableItems depth (before ++ item' :: after) = true := by
        simp only [storableItems_eq_true, List.forall_mem_append, List.forall_mem_cons]
          at hstorable ⊢
        exact ⟨hstorable.1, halters.storable hstorable.2.1, hstorable.2.2⟩
      have hrest' := (fits hchildren kind).ofItems_alter halters hrest
      exact decodeWith_arr_eq_ok.mpr ⟨hclosed, head, _, kind, rfl, hkind, hkept, hrest'⟩

/-- A node is decoded in the same way if its children are, whichever way its kind is looked up. -/
theorem overlooks_decodeWith : Overlooks .node (decodeWith kindOf children depth) := by
  intro item item' node halters hnode
  cases halters with
  | permute hperm =>
      obtain ⟨hclosed, kind, others, hnamed, hothers⟩ := decodeWith_obj_eq_ok.mp hnode
      obtain ⟨others', hnamed', hperm'⟩ := hnamed.perm hperm
      have hothers' := (fits hchildren kind).ofMembers_perm hperm' hothers
      exact decodeWith_obj_eq_ok.mpr ⟨hclosed, kind, others', hnamed', hothers'⟩
  | insert hfields hkey hitem => exact decodeWith_insert hkindOf hchildren hfields hkey hitem hnode
  | member halters => exact decodeWith_alter_member hkindOf hchildren halters hnode
  | element halters => exact decodeWith_alter_element hkindOf hchildren halters hnode

end Decoding

theorem kindByPosition_of_kindByName {item : Reading} {kind : NodeKind}
    (h : kindByName item = .ok kind) : kindByPosition item = .ok kind := by
  cases item with
  | num => cases h
  | null | bool | str | arr | obj | broken => exact h

theorem overlooks_inner : Overlooks .node (decodeInner depth) := by
  induction depth using Nat.strongRecOn with
  | ind depth ih =>
      intro item item' node halters hnode
      cases depth with
      | zero => cases hnode
      | succ d =>
          have hchildren : Overlooks (.list .node) (asList decodeInner d) :=
            overlooks_asList fun d' hd' => ih d' (by omega)
          rw [decodeInner_eq] at hnode ⊢
          exact overlooks_decodeWith (fun _ _ h => h) hchildren item item' node halters hnode

theorem overlooks : Overlooks .node (decode depth) := by
  intro item item' node halters hnode
  cases depth with
  | zero => cases hnode
  | succ d =>
      have hchildren : Overlooks (.list .node) (asList decodeInner d) :=
        overlooks_asList fun _ _ => overlooks_inner
      exact overlooks_decodeWith (fun _ _ => kindByPosition_of_kindByName) hchildren
        item item' node halters hnode

end Node

theorem Outline.overlooks : Overlooks (.record .file) (Outline.decode depth) := by
  intro item item' o halters ho
  cases depth with
  | zero => cases ho
  | succ d =>
      have hchildren : Overlooks (.list .node) (asList Node.decode d) :=
        overlooks_asList fun _ _ => Node.overlooks
      exact ((FileHead.fits hchildren .streamed).map _).overlooks item item' o halters ho

theorem Outline.decode_rearranged {item altered : Reading} {o : Outline}
    (halters : Relation.ReflTransGen (Alters (.record .file)) item altered)
    (h : Outline.decode depth item = .ok o) : Outline.decode depth altered = .ok o := by
  induction halters with
  | refl => exact h
  | tail _ hstep ih => exact Outline.overlooks _ _ o hstep ih

/-! ## Texts -/

/-- A text that is decoded is a text of some value. If the members of the objects in this value
change places, or if its records get members that they do not declare, then every text of the
altered value is decoded to the same outline. -/
theorem Outline.decodeText_rearranged {text : List Char} {o : Outline}
    (h : decodeText Outline.decode text = .ok o) :
    (∃ item, WritesDocument item text) ∧
      ∀ {item altered : Reading} {text' : List Char}, WritesDocument item text →
        Relation.ReflTransGen (Alters (.record .file)) item altered →
        WritesDocument altered text' → decodeText Outline.decode text' = .ok o := by
  obtain ⟨o', hdecode, hdone⟩ := bind_eq_ok.mp h
  obtain ⟨hclean, rfl⟩ := ite_eq_ok.mp hdone
  have hdocument : Document.parse text = ⟨(Document.parse text).value, true⟩ := by
    rw [← hclean]
  refine ⟨⟨_, writesDocument_iff.mpr hdocument⟩, ?_⟩
  intro item altered text' hitem halters haltered
  rw [hitem.parse_eq] at hdecode
  rw [decodeText, haltered.parse_eq]
  simp only [Outline.decode_rearranged halters hdecode]
  rfl

/-- The members of an import, apart from its kind. -/
def Outline.ink : List (String × Value) :=
  [("module", .str "ink"), ("import_kind", .str "static"),
   ("location", .arr (List.replicate 6 (.num 0)))]

/-- The members of a file that holds a node. -/
def Outline.stampMembers (node : Value) : List (String × Value) :=
  [("path", .str "Stamp.java"), ("language", .str "java"),
   ("location", .arr ([1, 0, 1, 9, 0, 9].map .num)), ("children", .arr [node])]

def Outline.stamp : Outline where
  head := { path := "Stamp.java", language := .java, location := ⟨1, 0, 1, 9, 0, 9⟩ }
  children := [.leaf (.imported { module := "ink", kind := .static, location := {} })]

/-- The kind of the import goes to the end, and the import and the file get a member each. -/
theorem Outline.alters_stamp :
    Relation.ReflTransGen (Alters (.record .file))
      (Value.obj (stampMembers (.obj (("kind", .str "import") :: ink)))).reading
      (Value.obj (("schema", .str "2") :: stampMembers
        (.obj (("checked", .bool true) :: ink ++ [("kind", .str "import")])))).reading := by
  have hinside {node node' : Value} (h : Alters .node node.reading node'.reading) :
      Alters (.record .file) (Value.obj (stampMembers node)).reading
        (Value.obj (stampMembers node')).reading :=
    @Alters.member (.record .file) (some "children") _ _
      (readingMembers ((stampMembers .null).take 3)) [] true (@Alters.element _ _ _ [] [] true h)
  have hkind : Alters .node (Value.obj (("kind", .str "import") :: ink)).reading
      (Value.obj (ink ++ [("kind", .str "import")])).reading :=
    .permute (List.perm_append_singleton (some "kind", Reading.str (some "import"))
      (readingMembers ink)).symm
  have hchecked : Alters .node (Value.obj (ink ++ [("kind", .str "import")])).reading
      (Value.obj (("checked", .bool true) :: ink ++ [("kind", .str "import")])).reading :=
    .insert rfl (by decide) (.bool true)
  refine ((Relation.ReflTransGen.single (hinside hkind)).tail (hinside hchecked)).tail ?_
  exact .insert rfl (by decide) (.str "2")

set_option maxRecDepth 2048 in
theorem Outline.decodeText_rearranged_stamp :
    decodeText Outline.decode (Value.obj (stampMembers
        (.obj (("kind", .str "import") :: ink)))).toCompact.toList = .ok .stamp ∧
      decodeText Outline.decode (Value.obj (("schema", .str "2") :: stampMembers
        (.obj (("checked", .bool true) :: ink ++
          [("kind", .str "import")])))).toIndented.toList = .ok .stamp := by
  have hdecode : Outline.decode depthLimit (Value.obj (stampMembers
      (.obj (("kind", .str "import") :: ink)))).reading = .ok .stamp := rfl
  have htext : decodeText Outline.decode (Value.obj (stampMembers
      (.obj (("kind", .str "import") :: ink)))).toCompact.toList = .ok .stamp := by
    rw [Value.toCompact, String.toList_ofList, decodeText, (spells_compact _).parse_eq]
    simp only [hdecode]
    rfl
  refine ⟨htext, (Outline.decodeText_rearranged htext).2 ?_ alters_stamp ?_⟩
  · rw [Value.toCompact, String.toList_ofList]
    exact (spells_compact _).writesDocument
  · rw [Value.toIndented, String.toList_ofList]
    exact (spells_indented _ 0).writesDocument

end Precis
