import Precis.Audit
import Precis.Proofs.Pruning.Meet

/-! # Pruning does not depend on what it drops

An outline is changed at one position: a node is replaced or taken out, or its label is rewritten.
If the selection drops the position before and after, or clears whatever is rewritten, the change
does not show in what is left. -/

namespace Precis

/-! ## Positions -/

/-- A position in a row of trees: that of a node of the row, or one among the children of such a
node. -/
inductive Position where
  | here (index : Nat)
  | inside (index : Nat) (position : Position)

/-- The node with other children; a leaf has none. -/
def Node.withChildren (children : List Node) : Node → Node
  | .branch head _ => .branch head children
  | .leaf item => .leaf item

namespace Position

/-- The nodes on the way to a position, outermost first and the node at the position last, if there
is one. -/
def lineage? : Position → List Node → Option (List Node)
  | here i, nodes => nodes[i]?.map fun node => [node]
  | inside i p, nodes => nodes[i]?.bind fun node => (p.lineage? node.children).map (node :: ·)

/-- The node at a position, if there is one. -/
def node? : Position → List Node → Option Node
  | here i, nodes => nodes[i]?
  | inside i p, nodes => nodes[i]?.bind fun node => p.node? node.children

/-- The row with the node at a position changed, or taken out if nothing comes of it. -/
def edit (change : Node → Option Node) : Position → List Node → List Node
  | here i, nodes => nodes.take i ++ (nodes[i]?.bind change).toList ++ nodes.drop (i + 1)
  | inside i p, nodes =>
    nodes.take i ++
      (nodes[i]?.map fun node => node.withChildren (p.edit change node.children)).toList ++
      nodes.drop (i + 1)

end Position

/-- The outline with the node at a position changed, or taken out if nothing comes of it. -/
def Outline.edit (o : Outline) (p : Position) (change : Node → Option Node) : Outline :=
  { o with children := p.edit change o.children }

/-! ## Changes that a selection overlooks -/

namespace Selection

/-- There is a node at a position, and the node or a branch around it is not kept. -/
def DropsAt (s : Selection) (p : Position) (nodes : List Node) : Prop :=
  ∃ lineage, p.lineage? nodes = some lineage ∧ ∃ node ∈ lineage, s.keeps node = false

/-- Two labels that differ in nothing but what a selection clears. -/
structure Confuses (s : Selection) (l m : Label) : Prop where
  bare : l.bare = m.bare
  text : s.bodies = true → l.text? = m.text?
  decorators : s.decorators = true → l.decorators = m.decorators
  doc : l.doc? = m.doc? ∨
    (∀ c ∈ l.doc?, s.keepsFormat c.format = false) ∧ ∀ c ∈ m.doc?, s.keepsFormat c.format = false

theorem keepsLabel_bare (s : Selection) (l : Label) : s.keepsLabel l.bare = s.keepsLabel l := by
  rcases l with (_ | _ | _) | (_ | _ | _ | _ | _ | _) <;> rfl

theorem Confuses.keepsLabel_eq {s : Selection} {l m : Label} (h : s.Confuses l m) :
    s.keepsLabel l = s.keepsLabel m := by
  rw [← keepsLabel_bare s l, h.bare, keepsLabel_bare]

theorem Confuses.trimLabel_eq {s : Selection} {l m : Label} (h : s.Confuses l m) :
    s.trimLabel l = s.trimLabel m := by
  have hl := trimmed_trimLabel s l
  have hm := trimmed_trimLabel s m
  apply Label.ext_parts
  · rw [hl.bare, hm.bare, h.bare]
  · rw [hl.text, hm.text]
    cases hbodies : s.bodies with
    | false => rfl
    | true => rw [h.text hbodies]
  · rw [hl.decorators, hm.decorators]
    cases hdecorators : s.decorators with
    | false => rfl
    | true => rw [h.decorators hdecorators]
  · rw [hl.doc, hm.doc]
    simp only [← keepsFormat_eq]
    rcases h.doc with hdoc | ⟨hldoc, hmdoc⟩
    · rw [hdoc]
    · rw [Option.filter_eq_none_iff.mpr fun c hc => by simp [hldoc c hc],
        Option.filter_eq_none_iff.mpr fun c hc => by simp [hmdoc c hc]]

end Selection

/-- The node with another label of the same form. -/
def Node.relabel (l : Label) : Node → Node
  | .branch head children =>
    match l with
    | .head other => .branch other children
    | .leaf _ => .branch head children
  | .leaf item =>
    match l with
    | .head _ => .leaf item
    | .leaf other => .leaf other

namespace Selection

/-! ## Rows -/

theorem remnant_eq_none {s : Selection} {node : Node} (h : s.keeps node = false) :
    s.remnant node = none := by
  cases node with
  | branch head children => simp [remnant, show s.keepsHead head = false from h]
  | leaf item => simp [remnant, show s.keepsLeaf item = false from h]

theorem keeps_withChildren (s : Selection) (node : Node) (children : List Node) :
    s.keeps (node.withChildren children) = s.keeps node := by
  cases node <;> rfl

theorem remnant_withChildren {s : Selection} {node : Node} {children : List Node}
    (h : s.remnants children = s.remnants node.children) :
    s.remnant (node.withChildren children) = s.remnant node := by
  cases node with
  | branch head own => rw [Node.withChildren, remnant, h, remnant, Node.children]
  | leaf item => rfl

theorem remnant_relabel {s : Selection} {node : Node} {l : Label}
    (h : s.Confuses node.label l) : s.remnant (node.relabel l) = s.remnant node := by
  have hkeep := h.keepsLabel_eq
  have htrim := h.trimLabel_eq
  cases node with
  | branch head children =>
      cases l with
      | head other =>
          have hkeep : s.keepsHead head = s.keepsHead other := hkeep
          have htrim : s.trimHead head = s.trimHead other := Label.head.inj htrim
          simp only [Node.relabel, remnant, hkeep, htrim]
      | leaf item => rfl
  | leaf item =>
      cases l with
      | head head => rfl
      | leaf other =>
          have hkeep : s.keepsLeaf item = s.keepsLeaf other := hkeep
          have htrim : s.trimLeaf item = s.trimLeaf other := Label.leaf.inj htrim
          simp only [Node.relabel, remnant, hkeep, htrim]

/-- What is left of a row is what is left before a node, of it and behind it. -/
theorem remnants_around {s : Selection} {nodes : List Node} {i : Nat} {node : Node}
    (h : nodes[i]? = some node) :
    s.remnants nodes =
      s.remnants (nodes.take i) ++ (s.remnant node).toList ++ s.remnants (nodes.drop (i + 1)) := by
  obtain ⟨hi, rfl⟩ := List.getElem?_eq_some_iff.mp h
  have hsplit : nodes = nodes.take i ++ nodes[i] :: nodes.drop (i + 1) := by simp
  conv_lhs => rw [hsplit]
  rw [remnants_append, remnants, List.append_assoc]

theorem getElem?_around {nodes : List Node} {i : Nat} {node : Node} (h : nodes[i]? = some node)
    (new : Node) : (nodes.take i ++ [new] ++ nodes.drop (i + 1))[i]? = some new := by
  obtain ⟨hi, -⟩ := List.getElem?_eq_some_iff.mp h
  simp [Nat.min_eq_left (Nat.le_of_lt hi)]

theorem dropsAt_here {s : Selection} {nodes : List Node} {i : Nat}
    (h : s.DropsAt (.here i) nodes) : ∃ node, nodes[i]? = some node ∧ s.keeps node = false := by
  obtain ⟨lineage, hlineage, node, hnode, hdrop⟩ := h
  obtain ⟨found, hfound, rfl⟩ := Option.map_eq_some_iff.mp hlineage
  obtain rfl := List.mem_singleton.mp hnode
  exact ⟨node, hfound, hdrop⟩

theorem dropsAt_inside {s : Selection} {nodes : List Node} {i : Nat} {p : Position}
    (h : s.DropsAt (.inside i p) nodes) :
    ∃ node, nodes[i]? = some node ∧ (s.keeps node = false ∨ s.DropsAt p node.children) := by
  obtain ⟨lineage, hlineage, node, hnode, hdrop⟩ := h
  obtain ⟨found, hfound, hbelow⟩ := Option.bind_eq_some_iff.mp hlineage
  obtain ⟨rest, hrest, rfl⟩ := Option.map_eq_some_iff.mp hbelow
  refine ⟨found, hfound, ?_⟩
  rcases List.mem_cons.mp hnode with rfl | hnode
  · exact .inl hdrop
  · exact .inr ⟨rest, hrest, node, hnode, hdrop⟩

theorem not_dropsAt_nil (s : Selection) (p : Position) : ¬ s.DropsAt p [] := by
  rintro ⟨lineage, hlineage, -⟩
  cases p <;> simp [Position.lineage?] at hlineage

theorem children_withChildren {s : Selection} {p : Position} {node : Node}
    (h : s.DropsAt p node.children) (children : List Node) :
    (node.withChildren children).children = children := by
  cases node with
  | branch head own => rfl
  | leaf item => exact absurd h (not_dropsAt_nil s p)

/-- Nothing shows of a node that is dropped, is replaced by one that is dropped or is taken out. -/
theorem remnants_edit_of_dropsAt {s : Selection} {p : Position} {nodes : List Node}
    {new : Option Node} (h : s.DropsAt p nodes)
    (hnew : new.isSome = true → s.DropsAt p (p.edit (fun _ => new) nodes)) :
    s.remnants (p.edit (fun _ => new) nodes) = s.remnants nodes := by
  induction p generalizing nodes with
  | here i =>
      obtain ⟨node, hnode, hdrop⟩ := dropsAt_here h
      rw [remnants_around hnode, remnant_eq_none hdrop, Position.edit, remnants_append,
        remnants_append, hnode]
      cases new with
      | none => rfl
      | some other =>
          obtain ⟨found, hfound, hkeep⟩ := dropsAt_here (hnew rfl)
          have hother : found = other := by
            rw [Position.edit, hnode] at hfound
            exact Option.some.inj (hfound.symm.trans (getElem?_around hnode other))
          subst hother
          simp [remnants, remnant_eq_none hkeep]
  | inside i p ih =>
      obtain ⟨node, hnode, hdrop⟩ := dropsAt_inside h
      rw [remnants_around hnode, Position.edit, remnants_append, remnants_append, hnode]
      simp only [Option.map_some, Option.toList_some, remnants, List.append_nil]
      congr 3
      -- A node that is not kept hides all that is below it; otherwise the change is hidden below.
      cases hkeep : s.keeps node with
      | false =>
          rw [remnant_eq_none hkeep, remnant_eq_none ((keeps_withChildren s node _).trans hkeep)]
      | true =>
          have hchildren : s.DropsAt p node.children := hdrop.resolve_left (by simp [hkeep])
          apply remnant_withChildren
          apply ih hchildren
          intro hsome
          obtain ⟨found, hfound, hbelow⟩ := dropsAt_inside (hnew hsome)
          rw [Position.edit, hnode] at hfound
          obtain rfl := Option.some.inj (hfound.symm.trans (getElem?_around hnode _))
          rw [keeps_withChildren, hkeep] at hbelow
          rw [children_withChildren hchildren] at hbelow
          exact hbelow.resolve_left (by simp)

/-- Nothing shows of a rewritten label if all that was rewritten is cleared. -/
theorem remnants_edit_of_confuses {s : Selection} {p : Position} {nodes : List Node} {node : Node}
    {l : Label} (hnode : p.node? nodes = some node) (h : s.Confuses node.label l) :
    s.remnants (p.edit (fun n => some (n.relabel l)) nodes) = s.remnants nodes := by
  induction p generalizing nodes with
  | here i =>
      have hnode : nodes[i]? = some node := hnode
      rw [remnants_around hnode, Position.edit, remnants_append, remnants_append, hnode]
      simp [remnants, remnant_relabel h]
  | inside i p ih =>
      obtain ⟨found, hfound, hbelow⟩ := Option.bind_eq_some_iff.mp hnode
      rw [remnants_around hfound, Position.edit, remnants_append, remnants_append, hfound]
      simp [remnants, remnant_withChildren (ih hbelow)]

end Selection

/-! ## Members of enums -/

/-- Whether a finding is about a member of an enum. -/
def Finding.isMember : Finding → Bool
  | .memberNotPublic _ _ | .memberNotConstant _ _ => true
  | .nestedFile _ _ | .unnamed _ _ | .inverted _ _ => false

/-- An audit finds nothing wrong with the members of enums. -/
def Outline.MembersLawful (o : Outline) : Prop :=
  ∀ x ∈ o.findings, x.isMember = false

theorem Outline.membersLawful_iff {o : Outline} :
    o.MembersLawful ↔
      ∀ node ∈ Node.preorderAll o.children, ∀ x ∈ node.findings, x.isMember = false := by
  rw [MembersLawful, findings, walk, Node.walk_eq_preorderAll, List.forall_mem_flatMap]

namespace Node

theorem isBadMember_of_memberFindings {enumName : String} {node : Node}
    (h : ∀ x ∈ node.memberFindings enumName, x.isMember = false) : node.isBadMember = false := by
  rcases node with _ | (_ | _ | item | _ | _ | _)
  case leaf.field =>
    cases hmember : item.enumMember with
    | false => simp [isBadMember, hmember]
    | true =>
        by_cases hpublic : item.visibility = .pub
        · by_cases hconstant : (item.modifiers.has .static && item.modifiers.has .const) = true
          · rw [isBadMember, Field.isPublicConstant, Bool.and_assoc, hconstant, hpublic]
            simp
          · have hfound := h (.memberNotConstant enumName item.name)
              (by simp [memberFindings, hmember, hconstant])
            cases hfound
        · have hfound := h (.memberNotPublic enumName item.name)
            (by simp [memberFindings, hmember, hpublic])
          cases hfound
  all_goals rfl

/-- A branch about which nothing is found has no breach. -/
theorem breach?_of_findings {head : Head} {children : List Node}
    (h : ∀ x ∈ (branch head children).findings, x.isMember = false) :
    breach? head children = none := by
  apply Selection.breach?_eq_none_iff.mpr
  intro hkind node hnode
  cases head with
  | file head => cases hkind
  | package head => cases hkind
  | type head =>
      have henum : head.kind = .enumType := NodeKind.type.inj hkind
      apply isBadMember_of_memberFindings
      intro x hx
      apply h
      simp only [findings, branchFindings, henum, if_true, List.mem_append, List.mem_flatMap]
      exact .inl (.inr ⟨node, hnode, hx⟩)

end Node

namespace Selection

theorem breachesAll_of_findings {s : Selection} {nodes : List Node}
    (h : ∀ node ∈ Node.preorderAll nodes, ∀ x ∈ node.findings, x.isMember = false) :
    s.breachesAll nodes = [] := by
  induction nodes using Node.rowInduction with
  | nil => rfl
  | leaf item rest ih =>
      apply ih
      intro node hnode
      exact h node (List.mem_append_right _ hnode)
  | branch head children rest ihc ihr =>
      rw [Node.preorderAll, Node.preorder, List.cons_append, List.forall_mem_cons,
        List.forall_mem_append] at h
      obtain ⟨hown, hchildren, hrest⟩ := h
      simp [breachesAll, breaches, Node.breach?_of_findings hown, ihc hchildren, ihr hrest]

theorem prune_of_membersLawful (s : Selection) {o : Outline} (h : o.MembersLawful) :
    s.prune o = .ok { o with children := s.remnants o.children } :=
  prune_eq_ok_iff.mpr ⟨breachesAll_of_findings (Outline.membersLawful_iff.mp h), rfl⟩

/-! ## Outlines -/

/-- Whatever a selection drops may be replaced by anything else that it drops, or taken out, and
whatever it clears may be rewritten: the result of pruning stays the same. -/
theorem prune_edit (s : Selection) {o : Outline} (p : Position) (ho : o.MembersLawful) :
    (∀ new : Option Node, s.DropsAt p o.children →
      (new.isSome = true → s.DropsAt p (o.edit p fun _ => new).children) →
      (o.edit p fun _ => new).MembersLawful →
      ∃ g, s.prune o = .ok g ∧ s.prune (o.edit p fun _ => new) = .ok g) ∧
    ∀ (node : Node) (l : Label), p.node? o.children = some node → s.Confuses node.label l →
      (o.edit p fun n => some (n.relabel l)).MembersLawful →
      ∃ g, s.prune o = .ok g ∧ s.prune (o.edit p fun n => some (n.relabel l)) = .ok g := by
  refine ⟨?_, ?_⟩
  · intro new hdrop hnew hedit
    refine ⟨_, s.prune_of_membersLawful ho, ?_⟩
    rw [s.prune_of_membersLawful hedit, Outline.edit, remnants_edit_of_dropsAt hdrop hnew]
  · intro node l hnode hconfuses hedit
    refine ⟨_, s.prune_of_membersLawful ho, ?_⟩
    rw [s.prune_of_membersLawful hedit, Outline.edit, remnants_edit_of_confuses hnode hconfuses]

/-- A public function for the place of the method in the private class of the specimen. -/
def intruder : Node :=
  .leaf (.function { name := "peek", visibility := .pub, body := some "key", location := {} })

/-- Where the method of the private class stands in the specimen. -/
def methodPosition : Position := .inside 0 (.here 0)

/-- Where the member of the enum stands in the specimen. -/
def memberPosition : Position := .inside 1 (.here 0)

/-- The label of the member with a value. -/
def valuedMember : Label :=
  .leaf (.field { Field.ofEnum "RED" "Colour" {} with value := some "0xff0000" })

theorem prune_edit_specimen :
    Outline.specimen.MembersLawful ∧
    signatures.DropsAt methodPosition Outline.specimen.children ∧
    signatures.DropsAt methodPosition
      (Outline.specimen.edit methodPosition fun _ => some intruder).children ∧
    (∃ g, signatures.prune .specimen = .ok g ∧
      signatures.prune (Outline.specimen.edit methodPosition fun _ => some intruder) = .ok g) ∧
    ∃ g, signatures.prune .specimen = .ok g ∧
      signatures.prune
        (Outline.specimen.edit memberPosition fun n => some (n.relabel valuedMember)) = .ok g := by
  have hlawful : Outline.specimen.MembersLawful := Outline.membersLawful_iff.mpr (by decide)
  have hbefore : signatures.DropsAt methodPosition Outline.specimen.children :=
    ⟨_, rfl, _, List.mem_cons_self, rfl⟩
  have hafter : signatures.DropsAt methodPosition
      (Outline.specimen.edit methodPosition fun _ => some intruder).children :=
    ⟨_, rfl, _, List.mem_cons_self, rfl⟩
  refine ⟨hlawful, hbefore, hafter, ?_, ?_⟩
  · apply (prune_edit signatures methodPosition hlawful).1 (some intruder) hbefore fun _ => hafter
    exact Outline.membersLawful_iff.mpr (by decide)
  · apply (prune_edit signatures memberPosition hlawful).2 _ valuedMember rfl
    · exact ⟨rfl, by decide, fun _ => rfl, .inl rfl⟩
    · exact Outline.membersLawful_iff.mpr (by decide)

end Selection

end Precis
