import Precis.Proofs.Interchange.Declarations
import Precis.Proofs.Walking.Preorder

/-! # Outlines survive being written and read back -/

namespace Precis

open Json

variable {depth : Nat}

/-! ## Nodes -/

namespace Node

/-- The members of a node, apart from its kind. -/
def members : Node → List (String × Value)
  | branch head children => head.members ++ childrenMember (children.map encode)
  | leaf item => item.members

theorem encodeAll_eq (nodes : List Node) : encodeAll nodes = nodes.map encode := by
  induction nodes with
  | nil => rfl
  | cons node rest ih => rw [encodeAll, ih, List.map_cons]

theorem encode_eq (node : Node) : node.encode = .obj (kindMember node.kind :: node.members) := by
  cases node with
  | branch head children =>
      rw [encode, encodeAll_eq]
      rfl
  | leaf item => rw [encode, members, kind]

theorem rebuilds {children : Reading → Except Fault (List Node)}
    (hchildren : Restores depth children fun nodes => .arr (nodes.map encode)) (node : Node) :
    (record children depth node.kind).Rebuilds depth node.members node := by
  cases node with
  | branch head nodes =>
      cases head with
      | file head => exact (FileHead.rebuilds hchildren .kept head nodes).map _
      | package head => exact (PackageHead.rebuilds hchildren head nodes).map _
      | type head => exact (TypeHead.rebuilds hchildren head nodes).map _
  | leaf item =>
      cases item with
      | imported item => exact (Import.rebuilds item).map _
      | function item => exact (Function.rebuilds item).map _
      | field item => exact (Field.rebuilds item).map _
      | typeAlias item => exact (TypeAlias.rebuilds item).map _
      | comment item => exact (Comment.rebuilds .kept item).map _
      | problem item => exact (Problem.rebuilds item).map _

/-- No node has a member of its own that is called like the one for its kind. -/
theorem lacks_kind (children : Reading → Except Fault (List Node)) (kind : NodeKind) :
    (record children depth kind).Lacks "kind" := by
  cases kind <;>
    simp [record, FileHead.record, PackageHead.record, TypeHead.record, Import.record,
      Function.record, Field.record, TypeAlias.record, Comment.record, Problem.record]

/-- A member that is kept until the kind of the node is known. -/
def Kept (depth : Nat) (m : Option String × Reading) : Prop :=
  (∃ key, m.1 = some key ∧ key ≠ "kind") ∧ m.2.storable depth = true

theorem splitKind_kept {kindOf : Reading → Except Fault NodeKind} {found : Option NodeKind}
    {members : List (Option String × Reading)} (h : ∀ m ∈ members, Kept depth m) :
    splitKind kindOf depth found members = .ok (found, members) := by
  induction members with
  | nil => rfl
  | cons m rest ih =>
      obtain ⟨⟨⟨key, hkey, hne⟩, hstorable⟩, hrest⟩ := List.forall_mem_cons.mp h
      obtain ⟨_, item⟩ := m
      subst hkey
      simp [splitKind, hne, hstorable, ih hrest, Except.map]

theorem kept_readingMembers {ms : List (String × Value)} (hkind : ∀ m ∈ ms, m.1 ≠ "kind")
    (hwithin : ∀ m ∈ ms, m.2.Within depth) : ∀ m ∈ readingMembers ms, Kept depth m := by
  rw [readingMembers_eq_map, List.forall_mem_map]
  exact fun m hm => ⟨⟨m.1, rfl, hkind m hm⟩, (hwithin m hm).storable⟩

/-- A node is restored if its children are, whichever way its kind is looked up. -/
theorem restores_decodeWith {kindOf : Reading → Except Fault NodeKind}
    {children : Reading → Except Fault (List Node)}
    (hkindOf : ∀ kind : NodeKind, kindOf (.str (some kind.id)) = .ok kind)
    (hchildren : Restores depth children fun nodes => .arr (nodes.map encode)) :
    Restores (depth + 1) (decodeWith kindOf children depth) encode := by
  intro node hwithin
  rw [encode_eq] at hwithin ⊢
  have hmembers : ∀ m ∈ node.members, m.2.Within depth :=
    (List.forall_mem_cons.mp (within_obj.mp hwithin).2).2
  have hrebuilds := rebuilds hchildren node
  obtain ⟨last, htakes, -⟩ := hrebuilds hmembers
  have hnames : ∀ m ∈ node.members, m.1 ≠ "kind" := by
    intro m hm hkind
    exact htakes.not_lacks m hm (hkind ▸ lacks_kind children node.kind)
  have hsplit : splitKind kindOf depth none
      (readingMembers (kindMember node.kind :: node.members)) =
        .ok (some node.kind, readingMembers node.members) := by
    simp [kindMember, readingMembers, Value.reading, splitKind, hkindOf,
      splitKind_kept (kept_readingMembers hnames hmembers)]
  simp only [Value.reading, decodeWith, hsplit]
  exact hrebuilds.ofMembers_eq hmembers

theorem kindByName_id (kind : NodeKind) : kindByName (.str (some kind.id)) = .ok kind := by
  rcases kind with _ | _ | _ | (_ | _ | _ | _) | _ | _ | _ | _ | _ <;> rfl

theorem kindByPosition_id (kind : NodeKind) : kindByPosition (.str (some kind.id)) = .ok kind :=
  kindByName_id kind

theorem decodeInner_eq (item : Reading) :
    decodeInner (depth + 1) item =
      decodeWith kindByPosition (asList decodeInner depth) depth item := by
  cases depth <;> rfl

theorem restores_inner : Restores depth (decodeInner depth) encode := by
  -- A child is two levels below its parent: one for the parent, one for the row of children.
  induction depth using Nat.strongRecOn with
  | ind depth ih =>
      intro node hwithin
      cases depth with
      | zero =>
          rw [encode_eq] at hwithin
          exact absurd (within_obj.mp hwithin).1 (Nat.lt_irrefl 0)
      | succ d =>
          have hchildren : Restores d (asList decodeInner d) fun nodes => .arr (nodes.map encode) :=
            restores_asList fun d' hd' => ih d' (by omega)
          rw [decodeInner_eq]
          exact restores_decodeWith kindByPosition_id hchildren node hwithin

theorem restores : Restores depth (decode depth) encode := by
  intro node hwithin
  cases depth with
  | zero =>
      rw [encode_eq] at hwithin
      exact absurd (within_obj.mp hwithin).1 (Nat.lt_irrefl 0)
  | succ d =>
      exact restores_decodeWith kindByName_id (restores_asList fun _ _ => restores_inner)
        node hwithin

end Node

theorem Outline.restores : Restores depth (Outline.decode depth) Outline.encode := by
  intro o hwithin
  rw [Outline.encode, Node.encodeAll_eq] at hwithin ⊢
  cases depth with
  | zero => exact absurd (within_obj.mp hwithin).1 (Nat.lt_irrefl 0)
  | succ d =>
      have hchildren :
          Restores d (asList Node.decode d) fun nodes => .arr (nodes.map Node.encode) :=
        restores_asList fun _ _ => Node.restores
      exact ((FileHead.rebuilds hchildren .streamed o.head o.children).map _).decode_eq hwithin

/-! ## Numbers -/

/-- All numbers of a location are indices. -/
structure Location.Indexed (l : Location) : Prop where
  startLine : l.startLine < indexBound
  startColumn : l.startColumn < indexBound
  endLine : l.endLine < indexBound
  endColumn : l.endColumn < indexBound
  startByte : l.startByte < indexBound
  endByte : l.endByte < indexBound

instance : DecidablePred Location.Indexed := fun l =>
  decidable_of_iff
    (l.startLine < indexBound ∧ l.startColumn < indexBound ∧ l.endLine < indexBound ∧
      l.endColumn < indexBound ∧ l.startByte < indexBound ∧ l.endByte < indexBound)
    ⟨fun ⟨sl, sc, el, ec, sb, eb⟩ => ⟨sl, sc, el, ec, sb, eb⟩,
      fun ⟨sl, sc, el, ec, sb, eb⟩ => ⟨sl, sc, el, ec, sb, eb⟩⟩

/-- A node and its doc comment stand at locations that are made up of indices. -/
def Label.Indexed : Label → Prop
  | .head branch => branch.location.Indexed ∧ ∀ doc ∈ branch.doc?, doc.location.Indexed
  | .leaf item => item.location.Indexed ∧ ∀ doc ∈ item.doc?, doc.location.Indexed

instance : DecidablePred Label.Indexed
  | .head _ | .leaf _ => inferInstanceAs (Decidable (_ ∧ _))

/-- All locations in an outline are made up of indices. -/
structure Outline.Indexed (o : Outline) : Prop where
  head : o.head.location.Indexed
  nodes : Node.Everywhere Label.Indexed o.children

instance : DecidablePred Outline.Indexed := fun o =>
  decidable_of_iff (o.head.location.Indexed ∧ Node.Everywhere Label.Indexed o.children)
    ⟨fun ⟨head, nodes⟩ => ⟨head, nodes⟩, fun ⟨head, nodes⟩ => ⟨head, nodes⟩⟩

section

variable {key : String} {α : Type}

@[simp] theorem indexedMembers_append {ms ms' : List (String × Value)} :
    IndexedMembers (ms ++ ms') ↔ IndexedMembers ms ∧ IndexedMembers ms' := by
  simp only [indexedMembers_iff, List.forall_mem_append]

@[simp] theorem indexedMembers_listMember {items : List Value} :
    IndexedMembers (listMember key items) ↔ IndexedItems items := by
  cases items <;> simp [listMember, IndexedMembers, IndexedItems, Value.Indexed]

@[simp] theorem indexedMembers_member? {value : Option Value} :
    IndexedMembers (member? key value) ↔ ∀ v ∈ value, v.Indexed := by
  cases value <;> simp [member?, IndexedMembers]

@[simp] theorem indexedMembers_flagMember (b : Bool) : IndexedMembers (flagMember key b) := by
  cases b <;> simp [flagMember, IndexedMembers, Value.Indexed]

@[simp] theorem indexedItems_map {f : α → Value} {as : List α} :
    IndexedItems (as.map f) ↔ ∀ a ∈ as, (f a).Indexed := by
  simp [indexedItems_iff]

end

@[simp] theorem Location.indexed_encode {l : Location} : l.encode.Indexed ↔ l.Indexed := by
  simp only [Location.encode, Value.Indexed, IndexedMembers]
  constructor
  · rintro ⟨h1, h2, h3, h4, h5, h6, -⟩
    exact ⟨h1, h2, h3, h4, h5, h6⟩
  · rintro ⟨h1, h2, h3, h4, h5, h6⟩
    exact ⟨h1, h2, h3, h4, h5, h6, trivial⟩

mutual

theorem TypeExpr.indexed_encode : ∀ t : TypeExpr, t.encode.Indexed
  | ⟨name, args, nullable⟩ => by
    simp [TypeExpr.encode, Value.Indexed, IndexedMembers, TypeExpr.indexed_encodeAll args]

theorem TypeExpr.indexed_encodeAll : ∀ ts : List TypeExpr, IndexedItems (encodeAll ts)
  | [] => trivial
  | t :: ts => ⟨TypeExpr.indexed_encode t, TypeExpr.indexed_encodeAll ts⟩

end

attribute [simp] TypeExpr.indexed_encode TypeExpr.indexed_encodeAll

@[simp] theorem TypeParameter.indexed_encode (p : TypeParameter) : p.encode.Indexed := by
  simp [TypeParameter.encode, Value.Indexed, IndexedMembers]

@[simp] theorem Parameter.indexed_encode (p : Parameter) : p.encode.Indexed := by
  simp [Parameter.encode, Value.Indexed, IndexedMembers]

@[simp] theorem ImportedName.indexed_encode (n : ImportedName) : n.encode.Indexed := by
  simp [ImportedName.encode, Value.Indexed, IndexedMembers]

@[simp] theorem Comment.indexed_encode {c : Comment} : c.encode.Indexed ↔ c.location.Indexed := by
  simp [Comment.encode, Comment.members, Value.Indexed, IndexedMembers]

theorem Head.indexed_members {h : Head} (hlabel : (Label.head h).Indexed) :
    IndexedMembers h.members := by
  obtain ⟨hlocation, hdoc⟩ := hlabel
  cases h <;>
    simp_all [Head.members, FileHead.members, PackageHead.members, TypeHead.members,
      ModifierSet.encode, encodeTexts, Value.Indexed, IndexedMembers, Head.location, Head.doc?]

theorem Leaf.indexed_members {item : Leaf} (hlabel : (Label.leaf item).Indexed) :
    IndexedMembers item.members := by
  obtain ⟨hlocation, hdoc⟩ := hlabel
  cases item <;>
    simp_all [Leaf.members, Import.members, Function.members, Field.members, TypeAlias.members,
      Comment.members, Problem.members, ModifierSet.encode, encodeTexts, Value.Indexed,
      IndexedMembers, Leaf.location, Leaf.doc?]

theorem Node.indexed_encodeAll {nodes : List Node} (h : Everywhere Label.Indexed nodes) :
    IndexedItems (encodeAll nodes) := by
  induction nodes using rowInduction with
  | nil => trivial
  | leaf item rest ih =>
      obtain ⟨hitem, hrest⟩ := everywhere_leaf_cons.mp h
      exact ⟨⟨trivial, Leaf.indexed_members hitem⟩, ih hrest⟩
  | branch head children rest ihc ihr =>
      obtain ⟨hhead, hchildren, hrest⟩ := everywhere_branch_cons.mp h
      have hmembers : IndexedMembers (head.members ++ childrenMember (encodeAll children)) :=
        indexedMembers_append.mpr
          ⟨Head.indexed_members hhead, indexedMembers_listMember.mpr (ihc hchildren)⟩
      exact ⟨⟨trivial, hmembers⟩, ihr hrest⟩

theorem Outline.Indexed.encode {o : Outline} (h : o.Indexed) : o.encode.Indexed := by
  have hhead : IndexedMembers o.head.members :=
    @Head.indexed_members (.file o.head) ⟨h.head, nofun⟩
  exact indexedMembers_append.mpr
    ⟨hhead, indexedMembers_listMember.mpr (Node.indexed_encodeAll h.nodes)⟩

/-! ## Texts -/

/-- An outline can be read back from each of its two written forms. -/
theorem Outline.decodeText_encode (o : Outline) (hindexed : o.Indexed)
    (hdepth : o.encode.depth ≤ depthLimit) :
    decodeText Outline.decode o.encode.toCompact.toList = .ok o ∧
      decodeText Outline.decode o.encode.toIndented.toList = .ok o := by
  have hdecode : Outline.decode depthLimit o.encode.reading = .ok o :=
    Outline.restores o ⟨hdepth, hindexed.encode⟩
  have htext {text : List Char} (h : Spells o.encode text) :
      decodeText Outline.decode text = .ok o := by
    simp only [decodeText, h.parse_eq, hdecode]
    rfl
  rw [Value.toCompact, Value.toIndented, String.toList_ofList, String.toList_ofList]
  exact ⟨htext (spells_compact _), htext (spells_indented _ 0)⟩

/-- A method with a quoted default value and a doc comment of two lines, at the last location there
is, and an empty package. -/
def Outline.letter : Outline where
  head := { path := "src/Letter.java", language := .java }
  children :=
    [.branch
      (.type
        { kind := .classType, name := "Letter", visibility := .package
          modifiers := .ofList [.final, .abstract]
          typeParameters := [{ name := "T", bounds := [{ name := "Code", nullable := true }] }]
          location := {} })
      [.leaf (.function
        { name := "seal", visibility := .pub
          parameters := [{ name := "wax", default := some "\"red\\\"", optional := true }]
          result := some { name := "[]", args := [{ name := "T" }] }
          doc := some ⟨"/** Once.\n * \u0001\t§ */", .doc, {}⟩
          location := { startByte := 18446744073709551615, endByte := 18446744073709551615 } })],
     .branch (.package { name := "post", location := {} }) []]

theorem Outline.indexed_letter : Outline.letter.Indexed := by
  decide

theorem Outline.decodeText_encode_letter :
    Outline.letter.encode.depth = 8 ∧
      decodeText Outline.decode Outline.letter.encode.toCompact.toList = .ok .letter ∧
      decodeText Outline.decode Outline.letter.encode.toIndented.toList = .ok .letter := by
  have hdepth : Outline.letter.encode.depth = 8 := by decide +kernel
  exact ⟨hdepth, Outline.decodeText_encode .letter indexed_letter (by rw [hdepth]; decide)⟩

end Precis
