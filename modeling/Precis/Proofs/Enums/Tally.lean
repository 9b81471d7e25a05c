import Precis.ParseTree
import Precis.Proofs.Outlining.Arrangement
import Precis.Proofs.Pruning.Semantics
import Mathlib.Data.List.Flatten

/-! # Enums and their members

The enums of an outline are held against the enums of the parse tree that it was made from. Each
enum of the outline has a declaration of its own in the tree, in the same order, and its members are
exactly those that are spelled in the body of the declaration. -/

namespace Precis

/-! ## Enums in parse trees -/

/-- What a grammar calls the declaration of an enum and of a member of one. -/
structure EnumWords where
  declaration : String
  member : String

namespace EnumWords

variable (w : EnumWords)

/-- The declarations of enums in a tree, each before those inside it. -/
def declarations (t : ParseTree) : List ParseTree :=
  t.preorder.filter fun u => u.kind == w.declaration

/-- Whether a node declares a member that has a name. -/
def spellsMember (t : ParseTree) : Bool :=
  t.kind == w.member && (t.child? "name").isSome

/-- The declarations of members in the body of an enum. -/
def membersOf (t : ParseTree) : List ParseTree :=
  ((t.child? "body").map fun body => body.parts.filter w.spellsMember).getD []

variable {w}

theorem declarations_eq (t : ParseTree) :
    w.declarations t = (if t.kind == w.declaration then [t] else []) ++
      t.children.flatMap w.declarations := by
  rw [declarations, ParseTree.preorder_eq, List.filter_cons, List.filter_flatMap]
  split <;> rfl

theorem declarations_of_kind {t : ParseTree} (h : t.kind = w.declaration) :
    w.declarations t = t :: t.children.flatMap w.declarations := by
  rw [declarations_eq, if_pos (by simpa using h), List.singleton_append]

theorem flatMap_declarations_sublist {t : ParseTree} {ts : List ParseTree}
    (h : ts.Sublist t.children) : (ts.flatMap w.declarations).Sublist (w.declarations t) := by
  rw [declarations_eq t]
  exact (h.flatMap w.declarations).trans (List.sublist_append_right _ _)

theorem declarations_sublist_flatMap {t c : ParseTree} (h : c ∈ t.children) :
    (w.declarations c).Sublist (t.children.flatMap w.declarations) := by
  simpa using (List.singleton_sublist.mpr h).flatMap w.declarations

theorem declarations_sublist {t c : ParseTree} (h : c ∈ t.children) :
    (w.declarations c).Sublist (w.declarations t) :=
  (declarations_sublist_flatMap h).trans (flatMap_declarations_sublist (List.Sublist.refl _))

end EnumWords

/-! ## Enums in outlines -/

namespace Node

/-- The field of an enum member. -/
def enumMember? : Node → Option Field
  | leaf (.field item) => if item.enumMember then some item else none
  | _ => none

/-- Whether a node is an enum. -/
def isEnum (node : Node) : Bool :=
  node.kind == .type .enumType

/-- The enum members in a row of nodes, but not inside them. -/
def memberFields (nodes : List Node) : List Field :=
  nodes.filterMap enumMember?

/-- The enums in a row of nodes and inside them. -/
def enums (nodes : List Node) : List Node :=
  (preorderAll nodes).filter isEnum

theorem memberFields_append (xs ys : List Node) :
    memberFields (xs ++ ys) = memberFields xs ++ memberFields ys :=
  List.filterMap_append

theorem memberFields_cons (node : Node) (rest : List Node) :
    memberFields (node :: rest) = node.enumMember?.toList ++ memberFields rest := by
  rw [memberFields, List.filterMap_cons]
  cases node.enumMember? <;> rfl

theorem enums_append (xs ys : List Node) : enums (xs ++ ys) = enums xs ++ enums ys := by
  rw [enums, preorderAll_append, List.filter_append, enums, enums]

theorem enums_cons (node : Node) (rest : List Node) :
    enums (node :: rest) = enums [node] ++ enums rest :=
  enums_append [node] rest

theorem enums_leaf (item : Leaf) : enums [leaf item] = [] := by
  cases item <;> rfl

theorem enums_branch (head : Head) (children : List Node) :
    enums [branch head children] =
      (if head.kind == .type .enumType then [branch head children] else []) ++ enums children := by
  rw [enums, preorderAll, preorderAll, List.append_nil, preorder, List.filter_cons, isEnum, kind,
    enums]
  split <;> rfl

end Node

/-- A field that is the member that a node of the parse tree declares. -/
structure Field.Spells (source : List Char) (f : Field) (t : ParseTree) : Prop where
  name : (t.textOf? "name" source).map String.ofList = some f.name
  location : f.location = t.location source
  constant : f.isPublicConstant = true

/-- A node with all members, and no others, of the enum that a node of the parse tree declares. -/
structure Node.Enumerates (w : EnumWords) (source : List Char) (node : Node) (t : ParseTree) :
    Prop where
  name : (t.textOf? "name" source).map String.ofList = node.name?
  location : node.location = t.location source
  members : List.Forall₂ (Field.Spells source) (Node.memberFields node.children) (w.membersOf t)

/-- A row of nodes has the members of a list, and enums only from another list, both in order. -/
structure Tallies (w : EnumWords) (source : List Char) (nodes : List Node)
    (members declared : List ParseTree) : Prop where
  members : List.Forall₂ (Field.Spells source) (Node.memberFields nodes) members
  enums : List.SublistForall₂ (Node.Enumerates w source) (Node.enums nodes) declared

theorem sublistForall₂_append {α β : Type} {R : α → β → Prop} {as as' : List α}
    {bs bs' : List β} (h : List.SublistForall₂ R as bs) (h' : List.SublistForall₂ R as' bs') :
    List.SublistForall₂ R (as ++ as') (bs ++ bs') := by
  rw [List.sublistForall₂_iff] at h h' ⊢
  obtain ⟨cs, hcs, hsub⟩ := h
  obtain ⟨cs', hcs', hsub'⟩ := h'
  exact ⟨cs ++ cs', List.rel_append hcs hcs', hsub.append hsub'⟩

theorem exists_of_mem_sublistForall₂ {α β : Type} {R : α → β → Prop} {as : List α} {bs : List β}
    (h : List.SublistForall₂ R as bs) {a : α} (ha : a ∈ as) : ∃ b ∈ bs, R a b := by
  induction h with
  | nil => cases ha
  | cons hhead _ ih =>
      rcases List.mem_cons.mp ha with rfl | ha
      · exact ⟨_, List.mem_cons_self, hhead⟩
      · obtain ⟨b, hb, hrel⟩ := ih ha
        exact ⟨b, List.mem_cons_of_mem _ hb, hrel⟩
  | cons_right _ ih =>
      obtain ⟨b, hb, hrel⟩ := ih ha
      exact ⟨b, List.mem_cons_of_mem _ hb, hrel⟩

namespace Tallies

variable {w : EnumWords} {source : List Char} {nodes : List Node}
  {ms ds : List ParseTree}

theorem mono {ds' : List ParseTree} (h : Tallies w source nodes ms ds) (hds : ds.Sublist ds') :
    Tallies w source nodes ms ds' := by
  refine ⟨h.members, ?_⟩
  obtain ⟨cs, hcs, hsub⟩ := List.sublistForall₂_iff.mp h.enums
  exact List.sublistForall₂_iff.mpr ⟨cs, hcs, hsub.trans hds⟩

theorem nil : Tallies w source [] [] ds :=
  ⟨.nil, .nil⟩

theorem append {others : List Node} {ms' ds' : List ParseTree}
    (h : Tallies w source nodes ms ds) (h' : Tallies w source others ms' ds') :
    Tallies w source (nodes ++ others) (ms ++ ms') (ds ++ ds') := by
  refine ⟨?_, ?_⟩
  · rw [Node.memberFields_append]
    exact List.rel_append h.members h'.members
  · rw [Node.enums_append]
    exact sublistForall₂_append h.enums h'.enums

theorem cons_leaf {item : Leaf} (hitem : (Node.leaf item).enumMember? = none)
    (h : Tallies w source nodes ms ds) : Tallies w source (.leaf item :: nodes) ms ds := by
  refine ⟨?_, ?_⟩
  · rw [Node.memberFields_cons, hitem]
    exact h.members
  · rw [Node.enums_cons, Node.enums_leaf]
    exact h.enums

theorem leaf {item : Leaf} (h : (Node.leaf item).enumMember? = none) :
    Tallies w source [.leaf item] [] ds :=
  nil.cons_leaf h

theorem ite {c : Prop} [Decidable c] {others : List Node} (h : Tallies w source nodes ms ds)
    (h' : Tallies w source others ms ds) :
    Tallies w source (if c then nodes else others) ms ds := by
  split
  · exact h
  · exact h'

theorem toList {found : Option Node}
    (h : ∀ node, found = some node → Tallies w source [node] [] ds) :
    Tallies w source found.toList [] ds := by
  cases found with
  | none => exact nil
  | some node => exact h node rfl

theorem toList_map {α : Type} {found : Option α} {f : α → Node}
    (h : ∀ a, Tallies w source [f a] [] ds) : Tallies w source (found.map f).toList [] ds := by
  apply toList
  intro node hnode
  obtain ⟨a, -, rfl⟩ := Option.map_eq_some_iff.mp hnode
  exact h a

theorem leaves (h : ∀ node ∈ nodes, ∃ item, node = .leaf item ∧ node.enumMember? = none) :
    Tallies w source nodes [] ds := by
  induction nodes with
  | nil => exact nil
  | cons node rest ih =>
      obtain ⟨⟨item, rfl, hitem⟩, hrest⟩ := List.forall_mem_cons.mp h
      exact (ih hrest).cons_leaf hitem

/-- A declaration of a member gives the member, if it has a name. -/
theorem ofEnum {t : ParseTree} (hkind : t.kind = w.member) (enumName : String) :
    Tallies w source
      ((t.textOf? "name" source).map fun name => Node.leaf
        (.field (Field.ofEnum (String.ofList name) enumName (t.location source)))).toList
      ([t].filter w.spellsMember) ds := by
  cases hname : t.child? "name" with
  | none => simpa [EnumWords.spellsMember, ParseTree.textOf?, hname] using nil
  | some name =>
      have htext : t.textOf? "name" source = some (name.text source) := by
        simp [ParseTree.textOf?, hname]
      have hspells : w.spellsMember t = true := by
        simp [EnumWords.spellsMember, hkind, hname]
      rw [htext, List.filter_singleton, hspells]
      refine ⟨.cons ⟨?_, rfl, rfl⟩ .nil, ?_⟩
      · rw [htext]
        rfl
      · rw [Option.map_some, Option.toList_some, Node.enums_leaf]
        exact .nil

theorem branch {head : Head} {children : List Node} (hhead : head.kind ≠ .type .enumType)
    (h : Tallies w source children ms ds) : Tallies w source [.branch head children] [] ds := by
  refine ⟨.nil, ?_⟩
  rw [Node.enums_branch, if_neg (by simpa using hhead)]
  exact h.enums

theorem enum {head : TypeHead} {children : List Node} {t : ParseTree}
    (hhead : head.kind = .enumType)
    (hname : (t.textOf? "name" source).map String.ofList = some head.name)
    (hlocation : head.location = t.location source)
    (h : Tallies w source children (w.membersOf t) ds) :
    Tallies w source [.branch (.type head) children] [] (t :: ds) := by
  refine ⟨.nil, ?_⟩
  rw [Node.enums_branch, if_pos (by simp [Head.kind, hhead])]
  exact .cons ⟨hname, hlocation, h.members⟩ h.enums

end Tallies

/-! ## Nodes that change apart from their members -/

/-- An enum that stands for another one: it has the same name and location, and members that spell
what the members of the other one spell. -/
structure Node.Resembles (source : List Char) (node other : Node) : Prop where
  name : node.name? = other.name?
  location : node.location = other.location
  members : ∀ ts, List.Forall₂ (Field.Spells source) (Node.memberFields other.children) ts →
    List.Forall₂ (Field.Spells source) (Node.memberFields node.children) ts

instance (source : List Char) : Std.Refl (Node.Resembles source) :=
  ⟨fun _ => ⟨rfl, rfl, fun _ h => h⟩⟩

theorem Node.Resembles.enumerates {w : EnumWords} {source : List Char} {node other : Node}
    {t : ParseTree} (h : node.Resembles source other) (ht : other.Enumerates w source t) :
    node.Enumerates w source t :=
  ⟨ht.name.trans h.name.symm, h.location.trans ht.location, h.members _ ht.members⟩

theorem sublistForall₂_trans {α β γ : Type} {R : α → β → Prop} {S : β → γ → Prop}
    {T : α → γ → Prop} (h : ∀ a b c, R a b → S b c → T a c) {as : List α} {bs : List β}
    {cs : List γ} (hab : List.SublistForall₂ R as bs) (hbc : List.SublistForall₂ S bs cs) :
    List.SublistForall₂ T as cs := by
  induction hbc generalizing as with
  | nil =>
      cases hab
      exact .nil
  | cons hhead _ ih =>
      cases hab with
      | nil => exact .nil
      | cons hfirst hrest => exact .cons (h _ _ _ hfirst hhead) (ih hrest)
      | cons_right hrest => exact .cons_right (ih hrest)
  | cons_right _ ih => exact .cons_right (ih hab)

theorem Tallies.of_resembles {w : EnumWords} {source : List Char} {nodes others : List Node}
    {ms ds : List ParseTree} (h : Tallies w source nodes ms ds)
    (hmembers : List.Forall₂ (Field.Spells source) (Node.memberFields nodes) ms →
      List.Forall₂ (Field.Spells source) (Node.memberFields others) ms)
    (henums : List.SublistForall₂ (Node.Resembles source) (Node.enums others) (Node.enums nodes)) :
    Tallies w source others ms ds := by
  refine ⟨hmembers h.members, sublistForall₂_trans ?_ henums h.enums⟩
  intro node other t hnode hother
  exact hnode.enumerates hother

/-- A branch with another head and other children has the same enums, if the head says the same
about an enum. -/
theorem enums_resemble_branch {source : List Char} {head head' : Head}
    {children children' : List Node} (hkind : head'.kind = head.kind)
    (hname : head'.name = head.name) (hlocation : head'.location = head.location)
    (hmembers : ∀ ts, List.Forall₂ (Field.Spells source) (Node.memberFields children) ts →
      List.Forall₂ (Field.Spells source) (Node.memberFields children') ts)
    (henums : List.SublistForall₂ (Node.Resembles source) (Node.enums children')
      (Node.enums children)) :
    List.SublistForall₂ (Node.Resembles source) (Node.enums [.branch head' children'])
      (Node.enums [.branch head children]) := by
  rw [Node.enums_branch, Node.enums_branch, hkind]
  refine sublistForall₂_append ?_ henums
  split
  · exact .cons ⟨congrArg some hname, hlocation, hmembers⟩ .nil
  · exact .nil

/-! ## Documented and arranged nodes -/

section Arranging

variable {w : EnumWords} {source : List Char}

theorem memberFields_withDoc (c : Comment) (nodes : List Node) :
    Node.memberFields (nodes.map (Node.withDoc c)) =
      (Node.memberFields nodes).map fun f => { f with doc := some c } := by
  rw [Node.memberFields, Node.memberFields, List.filterMap_map, List.map_filterMap]
  congr 1
  funext node
  rcases node with _ | (_ | _ | item | _ | _ | _)
  case leaf.field =>
    simp only [Function.comp, Node.withDoc, Leaf.withDoc, Node.enumMember?]
    split <;> rfl
  all_goals rfl

theorem enums_withDoc (c : Comment) (nodes : List Node) :
    List.SublistForall₂ (Node.Resembles source) (Node.enums (nodes.map (Node.withDoc c)))
      (Node.enums nodes) := by
  induction nodes with
  | nil => exact .nil
  | cons node rest ih =>
      rw [List.map_cons, Node.enums_cons, Node.enums_cons node]
      refine sublistForall₂_append ?_ ih
      cases node with
      | leaf item =>
          rw [Node.withDoc, Node.enums_leaf]
          exact .nil
      | branch head children =>
          apply enums_resemble_branch _ _ _ (fun _ h => h) (List.Sublist.refl _).sublistForall₂
          all_goals cases head <;> rfl

theorem Tallies.withDoc {nodes : List Node} {ms ds : List ParseTree} (c : Comment)
    (h : Tallies w source nodes ms ds) :
    Tallies w source (nodes.map (Node.withDoc c)) ms ds := by
  apply h.of_resembles _ (enums_withDoc c nodes)
  intro hmembers
  rw [memberFields_withDoc, List.forall₂_map_left_iff]
  exact hmembers.imp fun f t hf => ⟨hf.name, hf.location, hf.constant⟩

theorem tallies_standalone (waiting : Option Comment) :
    Tallies w source (standalone waiting) [] [] := by
  cases waiting with
  | none => exact .nil
  | some c => exact .leaf rfl

theorem tallies_document {nodes : List Node} {ms ds : List ParseTree} (waiting : Option Comment)
    (h : Tallies w source nodes ms ds) : Tallies w source (document waiting nodes) ms ds := by
  unfold document
  split
  · exact h
  · rename_i c
    split_ifs with hempty
    · rwa [List.isEmpty_iff.mp hempty] at h
    · exact h.withDoc c
    · exact h.cons_leaf rfl

/-- Arranging the pieces of a body neither loses nor moves members and enums. -/
theorem tallies_arrange {α : Type} {xs : List α} {f : α → Piece}
    (ms ds : α → List ParseTree)
    (h : ∀ x ∈ xs, Tallies w source (f x).nodes (ms x) (ds x)) :
    Tallies w source (arrange (xs.map f)) (xs.flatMap ms) (xs.flatMap ds) := by
  rw [arrange]
  generalize (none : Option Comment) = waiting
  induction xs generalizing waiting with
  | nil => exact tallies_standalone waiting
  | cons x rest ih =>
      obtain ⟨hx, hrest⟩ := List.forall_mem_cons.mp h
      rw [List.map_cons, List.flatMap_cons, List.flatMap_cons]
      cases hpiece : f x with
      | doc c =>
          rw [hpiece] at hx
          exact hx.append (ih hrest _)
      | aside node =>
          rw [hpiece] at hx
          exact hx.append (ih hrest _)
      | element nodes =>
          rw [hpiece] at hx
          exact (tallies_document waiting hx).append (ih hrest _)
      | group nodes =>
          rw [hpiece] at hx
          exact ((tallies_standalone waiting).append hx).append (ih hrest _)

theorem tallies_arrange_plain {α : Type} {xs : List α} {f : α → Piece} (ds : α → List ParseTree)
    (h : ∀ x ∈ xs, Tallies w source (f x).nodes [] (ds x)) :
    Tallies w source (arrange (xs.map f)) [] (xs.flatMap ds) := by
  have hnone : xs.flatMap (fun _ => ([] : List ParseTree)) = [] :=
    List.flatMap_eq_nil_iff.mpr fun _ _ => rfl
  rw [← hnone]
  exact tallies_arrange _ ds h

theorem tallies_arrange_siblings {α : Type} {xs : List α} {f : α → Piece} {t : ParseTree}
    (tree : α → ParseTree) (hxs : (xs.map tree).Sublist t.children)
    (h : ∀ x ∈ xs, Tallies w source (f x).nodes [] (w.declarations (tree x))) :
    Tallies w source (arrange (xs.map f)) [] (w.declarations t) := by
  refine (tallies_arrange_plain _ h).mono ?_
  rw [← List.flatMap_map]
  exact EnumWords.flatMap_declarations_sublist hxs

theorem tallies_arrange_members {parts : List ParseTree} {f : ParseTree → Piece} {t : ParseTree}
    (hparts : parts.Sublist t.children)
    (h : ∀ part ∈ parts,
      Tallies w source (f part).nodes ([part].filter w.spellsMember) (w.declarations part)) :
    Tallies w source (arrange (parts.map f)) (parts.filter w.spellsMember) (w.declarations t) := by
  have hmembers : parts.flatMap (fun part => [part].filter w.spellsMember) =
      parts.filter w.spellsMember := by
    rw [← List.filter_flatMap, List.flatMap_singleton']
  rw [← hmembers]
  exact (tallies_arrange _ _ h).mono (EnumWords.flatMap_declarations_sublist hparts)

end Arranging

/-! ## Pruned nodes -/

section Pruning

variable {w : EnumWords} {source : List Char} {s : Selection}

theorem memberFields_remnant_of_none {node : Node} (h : node.enumMember? = none) :
    Node.memberFields (s.remnant node).toList = [] := by
  rcases node with ⟨head, children⟩ | item
  · rw [Selection.remnant]
    split <;> rfl
  · rw [Selection.remnant]
    split
    · cases item with
      | field f =>
          have hmember : f.enumMember = false := by simpa [Node.enumMember?] using h
          simp [Node.memberFields, Selection.trimLeaf, Node.enumMember?, hmember]
      | imported _ | function _ | typeAlias _ | comment _ | problem _ => rfl
    · rfl

/-- Members are public, so that a selection with fields keeps them. -/
theorem memberFields_remnant_of_some (hfields : s.fields = true) {node : Node} {f : Field}
    {t : ParseTree} (h : node.enumMember? = some f) (hf : f.Spells source t) :
    ∃ g, Node.memberFields (s.remnant node).toList = [g] ∧ g.Spells source t := by
  rcases node with _ | (_ | _ | item | _ | _ | _)
  case leaf.field =>
    obtain ⟨hmember, rfl⟩ : item.enumMember = true ∧ item = f := by
      simpa [Node.enumMember?] using h
    have hpublic : item.visibility = .pub := by
      have hconstant := hf.constant
      simp only [Field.isPublicConstant, Bool.and_eq_true, beq_iff_eq] at hconstant
      exact hconstant.1.1
    have hkeep : s.keepsLeaf (.field item) = true := by
      simp [Selection.keepsLeaf, Selection.admits, hfields, hpublic]
    rw [Selection.remnant, if_pos hkeep]
    refine ⟨{ item with value := s.trimBody item.value
                        decorators := s.trimDecorators item.decorators
                        doc := s.trimDoc item.doc }, ?_, ⟨hf.name, hf.location, hf.constant⟩⟩
    simp [Node.memberFields, Selection.trimLeaf, Node.enumMember?, hmember]
  all_goals cases h

theorem memberFields_remnants (hfields : s.fields = true) {nodes : List Node} {ts : List ParseTree}
    (h : List.Forall₂ (Field.Spells source) (Node.memberFields nodes) ts) :
    List.Forall₂ (Field.Spells source) (Node.memberFields (s.remnants nodes)) ts := by
  induction nodes generalizing ts with
  | nil => exact h
  | cons node rest ih =>
      rw [Selection.remnants, Node.memberFields_append]
      rw [Node.memberFields_cons] at h
      cases hmember : node.enumMember? with
      | none =>
          rw [hmember] at h
          rw [memberFields_remnant_of_none hmember]
          exact ih h
      | some f =>
          rw [hmember] at h
          obtain ⟨t, others, hf, hrest, rfl⟩ := List.forall₂_cons_left_iff.mp h
          obtain ⟨g, hg, hspells⟩ := memberFields_remnant_of_some hfields hmember hf
          rw [hg]
          exact .cons hspells (ih hrest)

theorem enums_remnants (hfields : s.fields = true) (nodes : List Node) :
    List.SublistForall₂ (Node.Resembles source) (Node.enums (s.remnants nodes))
      (Node.enums nodes) := by
  induction nodes using Node.rowInduction with
  | nil => exact .nil
  | leaf item rest ih =>
      rw [Selection.remnants, Node.enums_append, Node.enums_cons]
      refine sublistForall₂_append ?_ ih
      rw [Selection.remnant]
      split
      · rw [Option.toList_some, Node.enums_leaf]
        exact .nil
      · exact .nil
  | branch head children rest ihc ihr =>
      rw [Selection.remnants, Node.enums_append, Node.enums_cons]
      refine sublistForall₂_append ?_ ihr
      rw [Selection.remnant]
      split
      · rw [Option.toList_some]
        apply enums_resemble_branch _ _ _ (fun _ => memberFields_remnants hfields) ihc
        all_goals cases head <;> rfl
      · exact .nil

theorem Tallies.remnants {nodes : List Node} {ms ds : List ParseTree}
    (h : Tallies w source nodes ms ds) (hfields : s.fields = true) :
    Tallies w source (s.remnants nodes) ms ds :=
  h.of_resembles (memberFields_remnants hfields) (enums_remnants hfields nodes)

end Pruning

end Precis
