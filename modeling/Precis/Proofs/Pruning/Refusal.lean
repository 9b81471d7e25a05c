import Precis.Proofs.Pruning.Indifference

/-! # When pruning is refused

Pruning stops at the first enum, in walking order, that is kept with all branches around it and has
a member that is not public, static and constant. An audit finds fault with the members of exactly
those outlines that some selection refuses. -/

namespace Precis

/-! ## Sites -/

/-- A node in the list of all nodes: the heads of the branches around it, outermost first, and the
node with all that is below it. -/
structure Site where
  above : List Head
  node : Node

/-- The entry of a site, which leaves out what is below the node. -/
def Site.entry (site : Site) : Entry :=
  ⟨site.above, site.node.label⟩

namespace Node

mutual

/-- The sites of a node and of all nodes below it, each before its children. -/
def sites (above : List Head) : Node → List Site
  | branch head children => ⟨above, branch head children⟩ :: sitesAll (above ++ [head]) children
  | leaf item => [⟨above, leaf item⟩]

/-- The sites of all nodes of a row of trees, each before its children. -/
def sitesAll (above : List Head) : List Node → List Site
  | [] => []
  | node :: rest => node.sites above ++ sitesAll above rest

end

theorem map_entry_sitesAll (above : List Head) (nodes : List Node) :
    (sitesAll above nodes).map Site.entry = entriesAll above nodes := by
  induction nodes using rowInduction generalizing above with
  | nil => rfl
  | leaf item rest ih => simp [sitesAll, sites, entriesAll, entries, ih, Site.entry, label]
  | branch head children rest ihc ihr =>
      simp [sitesAll, sites, entriesAll, entries, ihc, ihr, Site.entry, label]

/-- The nodes of the sites are all nodes in walking order. -/
theorem map_node_sitesAll (above : List Head) (nodes : List Node) :
    (sitesAll above nodes).map Site.node = preorderAll nodes := by
  induction nodes using rowInduction generalizing above with
  | nil => rfl
  | leaf item rest ih => simp [sitesAll, sites, preorderAll, preorder, ih]
  | branch head children rest ihc ihr =>
      simp [sitesAll, sites, preorderAll, preorder, ihc, ihr]

theorem above_prefix_of_mem_sitesAll {above : List Head} {nodes : List Node} {site : Site}
    (h : site ∈ sitesAll above nodes) : above <+: site.above := by
  have hentry : site.entry ∈ entriesAll above nodes := by
    rw [← map_entry_sitesAll]
    exact List.mem_map_of_mem h
  exact above_prefix_of_mem_entriesAll hentry

end Node

/-- The sites of all nodes of an outline below its root, in walking order. -/
def Outline.sites (o : Outline) : List Site :=
  Node.sitesAll [] o.children

/-! ## Enums that break their promise -/

/-- An enum with a member that is not public, static and constant. -/
def Node.BreaksPromise : Node → Prop
  | .branch (.type head) children =>
    head.kind = .enumType ∧
      ∃ item : Field, .leaf (.field item) ∈ children ∧ item.enumMember = true ∧
        ¬ (item.visibility = .pub ∧ item.modifiers.has .static = true ∧
          item.modifiers.has .const = true)
  | _ => False

namespace Node

theorem isBadMember_iff {node : Node} :
    node.isBadMember = true ↔
      ∃ item : Field, node = .leaf (.field item) ∧ item.enumMember = true ∧
        ¬ (item.visibility = .pub ∧ item.modifiers.has .static = true ∧
          item.modifiers.has .const = true) := by
  rcases node with _ | (_ | _ | item | _ | _ | _)
  case leaf.field =>
    simp only [isBadMember, Field.isPublicConstant, Bool.and_eq_true, Bool.not_eq_true',
      ← Bool.not_eq_true, beq_iff_eq, and_assoc, leaf.injEq, Leaf.field.injEq, exists_eq_left']
  all_goals simp [isBadMember]

/-- The breach of a node by itself. -/
def ownBreach? : Node → Option EnumBreach
  | branch head children => breach? head children
  | leaf _ => none

/-- A node has a breach if it breaks its promise, and the breach bears its name. -/
theorem ownBreach?_eq_some_iff {node : Node} {b : EnumBreach} :
    node.ownBreach? = some b ↔ node.BreaksPromise ∧ node.name? = some b.enumName := by
  rcases node with ⟨_ | _ | head, children⟩ | item
  case branch.type =>
    have hbad : children.any isBadMember = true ↔
        ∃ item : Field, .leaf (.field item) ∈ children ∧ item.enumMember = true ∧
          ¬ (item.visibility = .pub ∧ item.modifiers.has .static = true ∧
            item.modifiers.has .const = true) := by
      simp only [List.any_eq_true, isBadMember_iff]
      constructor
      · rintro ⟨_, hmem, item, rfl, hitem⟩
        exact ⟨item, hmem, hitem⟩
      · rintro ⟨item, hmem, hitem⟩
        exact ⟨_, hmem, item, rfl, hitem⟩
    simp only [ownBreach?, breach?, BreaksPromise, name?, Head.name, hbad,
      Option.ite_none_right_eq_some, Option.some.injEq]
    rw [← EnumBreach.mk.injEq]
  all_goals simp [ownBreach?, breach?, BreaksPromise]

theorem ownBreach?_isSome_iff {node : Node} :
    node.ownBreach?.isSome = true ↔ node.BreaksPromise := by
  rw [Option.isSome_iff_exists]
  constructor
  · rintro ⟨b, hb⟩
    exact (ownBreach?_eq_some_iff.mp hb).1
  · intro h
    obtain ⟨name, hname⟩ : ∃ name, node.name? = some name := by
      rcases node with _ | _
      · exact ⟨_, rfl⟩
      · cases h
    exact ⟨⟨name⟩, ownBreach?_eq_some_iff.mpr ⟨h, hname⟩⟩

end Node

namespace Selection

/-! ## Sites that are reached -/

/-- Whether pruning gets to a site: the node and every branch around it are kept. -/
def reaches (s : Selection) (site : Site) : Bool :=
  site.above.all s.keepsHead && s.keeps site.node

/-- The breach that pruning meets at a site. -/
def breachAt? (s : Selection) (site : Site) : Option EnumBreach :=
  if s.reaches site then site.node.ownBreach? else none

theorem breachAt?_eq_some_iff {s : Selection} {site : Site} {b : EnumBreach} :
    s.breachAt? site = some b ↔
      (s.reaches site = true ∧ site.node.BreaksPromise) ∧ site.node.name? = some b.enumName := by
  rw [breachAt?, Option.ite_none_right_eq_some, Node.ownBreach?_eq_some_iff, and_assoc]

theorem breachAt?_isSome_iff {s : Selection} {site : Site} :
    (s.breachAt? site).isSome = true ↔ s.reaches site = true ∧ site.node.BreaksPromise := by
  rw [← Node.ownBreach?_isSome_iff, breachAt?]
  cases s.reaches site <;> simp

theorem breachAt?_eq_none_iff {s : Selection} {site : Site} :
    s.breachAt? site = none ↔ ¬ (s.reaches site = true ∧ site.node.BreaksPromise) := by
  rw [← breachAt?_isSome_iff, Option.not_isSome_iff_eq_none]

/-- Nothing is met below a branch that is dropped. -/
theorem filterMap_breachAt?_of_dropped {s : Selection} {above : List Head} {nodes : List Node}
    (h : above.all s.keepsHead = false) :
    (Node.sitesAll above nodes).filterMap s.breachAt? = [] := by
  apply List.filterMap_eq_nil_iff.mpr
  intro site hsite
  obtain ⟨below, hbelow⟩ := Node.above_prefix_of_mem_sitesAll hsite
  rw [breachAt?, reaches, ← hbelow, List.all_append, h]
  rfl

/-- Below branches that are all kept, the breaches are those met at the sites, in order. -/
theorem breachesAll_eq_filterMap {s : Selection} {above : List Head} (nodes : List Node)
    (h : above.all s.keepsHead = true) :
    s.breachesAll nodes = (Node.sitesAll above nodes).filterMap s.breachAt? := by
  induction nodes using Node.rowInduction generalizing above with
  | nil => rfl
  | leaf item rest ih =>
      have hown : s.breachAt? ⟨above, .leaf item⟩ = none := by
        simp [breachAt?, Node.ownBreach?]
      simp [breachesAll, breaches, Node.sitesAll, Node.sites, hown, ih h]
  | branch head children rest ihc ihr =>
      rw [breachesAll, breaches, ihr h, Node.sitesAll, Node.sites, List.filterMap_append]
      congr 1
      by_cases hkeep : s.keepsHead head
      · have hbelow : (above ++ [head]).all s.keepsHead = true := by
          simp [List.all_append, h, hkeep]
        have hown : s.breachAt? ⟨above, .branch head children⟩ = breach? head children := by
          simp [breachAt?, reaches, keeps, h, hkeep, Node.ownBreach?]
        rw [if_pos hkeep, ihc hbelow, List.filterMap_cons, hown]
        cases breach? head children <;> rfl
      · have hbelow : (above ++ [head]).all s.keepsHead = false := by
          simp [List.all_append, hkeep]
        have hown : s.breachAt? ⟨above, .branch head children⟩ = none := by
          simp [breachAt?, reaches, keeps, hkeep]
        rw [if_neg hkeep, List.filterMap_cons, hown, filterMap_breachAt?_of_dropped hbelow]

/-- Pruning is refused with the first breach that is met. -/
theorem prune_eq_error_iff {s : Selection} {o : Outline} {b : EnumBreach} :
    s.prune o = .error b ↔ o.sites.findSome? s.breachAt? = some b := by
  rw [prune, pruneNodes_eq_outcome, @breachesAll_eq_filterMap s [] o.children rfl,
    ← List.head?_filterMap, Outline.sites]
  cases (Node.sitesAll [] o.children).filterMap s.breachAt? <;> simp [outcome, Except.map]

theorem exists_prune_eq_error_iff {s : Selection} {o : Outline} :
    (∃ b, s.prune o = .error b) ↔
      ∃ site ∈ o.sites, s.reaches site = true ∧ site.node.BreaksPromise := by
  simp only [prune_eq_error_iff, ← Option.isSome_iff_exists, List.findSome?_isSome_iff,
    breachAt?_isSome_iff]

theorem exists_prune_eq_ok_iff {s : Selection} {o : Outline} :
    (∃ g, s.prune o = .ok g) ↔ ¬ ∃ b, s.prune o = .error b := by
  cases s.prune o <;> simp

end Selection

/-! ## Agreement with the audit -/

namespace Node

theorem memberFindings_of_isBadMember {enumName : String} {node : Node}
    (h : node.isBadMember = false) : node.memberFindings enumName = [] := by
  rcases node with _ | (_ | _ | item | _ | _ | _)
  case leaf.field =>
    simp only [isBadMember, Field.isPublicConstant, Bool.and_eq_false_imp, Bool.not_eq_false',
      Bool.and_eq_true, beq_iff_eq] at h
    rw [memberFindings]
    split
    · rename_i hmember
      obtain ⟨⟨hpublic, hstatic⟩, hconst⟩ := h hmember
      simp [hpublic, hstatic, hconst]
    · rfl
  all_goals rfl

/-- What is found about the members of an enum is found with one of them. -/
theorem mem_memberFindings_of_mem_findings {node : Node} {x : Finding} (h : x ∈ node.findings)
    (hx : x.isMember = true) :
    ∃ head children, node = branch (.type head) children ∧ head.kind = .enumType ∧
      ∃ child ∈ children, x ∈ child.memberFindings head.name := by
  have hown : x ∈ (match node with
      | branch head children => branchFindings head children
      | leaf _ => []) := by
    simp only [findings, List.mem_append] at h
    rcases h with (h | h) | h
    · obtain ⟨-, rfl⟩ := List.mem_ite_nil_right.mp h |>.imp_right List.mem_singleton.mp
      cases hx
    · exact h
    · obtain ⟨-, rfl⟩ := List.mem_ite_nil_right.mp h |>.imp_right List.mem_singleton.mp
      cases hx
  rcases node with ⟨_ | _ | head, children⟩ | item
  · obtain rfl := List.mem_singleton.mp hown
    cases hx
  · cases hown
  · obtain ⟨henum, hfound⟩ := List.mem_ite_nil_right.mp hown
    exact ⟨head, children, rfl, henum, List.mem_flatMap.mp hfound⟩
  · cases hown

/-- The audit finds fault with the members of exactly the enums that break their promise. -/
theorem isMember_findings_iff {node : Node} :
    (∀ x ∈ node.findings, x.isMember = false) ↔ ¬ node.BreaksPromise := by
  rw [← ownBreach?_isSome_iff, Option.not_isSome_iff_eq_none]
  constructor
  · intro h
    cases node with
    | branch head children => exact breach?_of_findings h
    | leaf item => rfl
  · intro h x hx
    by_contra hmember
    obtain ⟨head, children, rfl, henum, child, hchild, hfound⟩ :=
      mem_memberFindings_of_mem_findings hx (by simpa using hmember)
    have hbreach : breach? (.type head) children = none := h
    have hgood : child.isBadMember = false :=
      Selection.breach?_eq_none_iff.mp hbreach (congrArg NodeKind.type henum) child hchild
    rw [memberFindings_of_isBadMember hgood] at hfound
    cases hfound

end Node

theorem Outline.membersLawful_iff_sites {o : Outline} :
    o.MembersLawful ↔ ∀ site ∈ o.sites, ¬ site.node.BreaksPromise := by
  simp only [membersLawful_iff, Node.isMember_findings_iff, ← Node.map_node_sitesAll [],
    List.forall_mem_map, sites]

namespace Selection

theorem reaches_full (site : Site) : full.reaches site = true := by
  have hnode : full.keeps site.node = true := by
    cases h : site.node with
    | branch head children => exact keepsLabel_full (.head head)
    | leaf item => exact keepsLabel_full (.leaf item)
  have habove : site.above.all full.keepsHead = true :=
    List.all_eq_true.mpr fun head _ => keepsLabel_full (.head head)
  rw [reaches, habove, hnode]
  rfl

/-- Pruning is refused exactly if an enum that is reached breaks its promise; the refusal names the
first such enum in walking order. So an outline can be pruned under every selection exactly if an
audit finds nothing wrong with the members of its enums. -/
theorem prune_refusal (o : Outline) :
    (∀ s : Selection, (∃ b, s.prune o = .error b) ↔
      ∃ site ∈ o.sites, s.reaches site = true ∧ site.node.BreaksPromise) ∧
    (∀ (s : Selection) (b : EnumBreach), s.prune o = .error b →
      ∃ before site after name, o.sites = before ++ site :: after ∧
        (s.reaches site = true ∧ site.node.BreaksPromise) ∧
        (∀ other ∈ before, ¬ (s.reaches other = true ∧ other.node.BreaksPromise)) ∧
        site.node.name? = some name ∧
        b.message = "enum '" ++ name ++ "' has a member that is not public static const") ∧
    ((∀ s : Selection, ∃ g, s.prune o = .ok g) ↔ o.MembersLawful) := by
  refine ⟨fun s => exists_prune_eq_error_iff, ?_, ?_⟩
  · intro s b h
    obtain ⟨before, site, after, hsites, hsite, hbefore⟩ :=
      List.findSome?_eq_some_iff.mp (prune_eq_error_iff.mp h)
    obtain ⟨hbreaks, hname⟩ := breachAt?_eq_some_iff.mp hsite
    refine ⟨before, site, after, b.enumName, hsites, hbreaks, ?_, hname, rfl⟩
    intro other hother
    exact breachAt?_eq_none_iff.mp (hbefore other hother)
  · constructor
    · intro h
      rw [Outline.membersLawful_iff_sites]
      intro site hsite hbreaks
      -- The full selection reaches every site.
      apply exists_prune_eq_ok_iff.mp (h full)
      exact exists_prune_eq_error_iff.mpr ⟨site, hsite, reaches_full site, hbreaks⟩
    · intro h s
      exact ⟨_, prune_of_membersLawful s h⟩

end Selection

/-- A public enum whose only member is public and static but not constant. -/
def Node.rogueEnum (name : String) : Node :=
  .branch (.type { kind := .enumType, name := name, visibility := .pub, location := {} })
    [.leaf (.field { Field.ofEnum "RED" name {} with modifiers := .ofList [.static] })]

/-- Three enums that break their promise: one in a private class, one in a public class, and one
that stands behind both. -/
def Outline.rogue : Outline where
  head := { path := "Palette.java", language := .java }
  children :=
    [.branch (.type { kind := .classType, name := "Mixer", visibility := .priv, location := {} })
      [.rogueEnum "Hidden"],
     .branch (.type { kind := .classType, name := "Brush", visibility := .pub, location := {} })
      [.rogueEnum "Shade"],
     .rogueEnum "Tint"]

namespace Selection

/-- The signatures leave out the private class, so the second enum is the first one reached. -/
theorem prune_refusal_rogue :
    signatures.prune .rogue = .error ⟨"Shade"⟩ ∧
    (∃ before site after name, Outline.rogue.sites = before ++ site :: after ∧
      (signatures.reaches site = true ∧ site.node.BreaksPromise) ∧
      (∀ other ∈ before, ¬ (signatures.reaches other = true ∧ other.node.BreaksPromise)) ∧
      site.node.name? = some name ∧
      EnumBreach.message ⟨"Shade"⟩ =
        "enum '" ++ name ++ "' has a member that is not public static const") ∧
    full.prune .rogue = .error ⟨"Hidden"⟩ ∧ ¬ Outline.rogue.MembersLawful := by
  have hsignatures : signatures.prune .rogue = .error ⟨"Shade"⟩ := rfl
  have hfull : full.prune .rogue = .error ⟨"Hidden"⟩ := rfl
  refine ⟨hsignatures, (prune_refusal .rogue).2.1 signatures _ hsignatures, hfull, ?_⟩
  intro hlawful
  obtain ⟨g, hg⟩ := (prune_refusal .rogue).2.2.mpr hlawful full
  rw [hfull] at hg
  cases hg

end Selection

end Precis
