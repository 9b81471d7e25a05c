import Precis.Proofs.Pruning.Refusal
import Mathlib.Data.List.Flatten

/-! # What an audit finds after pruning

Pruning changes nothing that an audit looks at: it leaves names, kinds and locations as they are,
and it refuses an enum before it could hide one of its members. So every node that is left is found
at fault exactly as it was before, and nothing else is found. -/

namespace Precis

/-! ## One node -/

namespace Node

/-- In an enum without a breach, an audit finds nothing wrong with the members. -/
theorem branchFindings_of_breach? {head : Head} {children : List Node}
    (h : breach? head children = none) : branchFindings head children = branchFindings head [] := by
  cases head with
  | file head => rfl
  | package head => rfl
  | type head =>
      rw [branchFindings, branchFindings]
      split_ifs with henum
      · rw [List.flatMap_nil, List.flatMap_eq_nil_iff]
        intro child hchild
        exact memberFindings_of_isBadMember
          (Selection.breach?_eq_none_iff.mp h (congrArg NodeKind.type henum) child hchild)
      · rfl

end Node

namespace Selection

variable {s : Selection}

theorem findings_trimLeaf (s : Selection) (item : Leaf) :
    (Node.leaf (s.trimLeaf item)).findings = (Node.leaf item).findings := by
  cases item <;> rfl

theorem branchFindings_trimHead (s : Selection) (head : Head) (children : List Node) :
    Node.branchFindings (s.trimHead head) children = Node.branchFindings head children := by
  cases head <;> rfl

/-- A branch that is left is found at fault as before. -/
theorem findings_remnant_branch {head : Head} {children : List Node}
    (h : breach? head children = none) :
    (Node.branch (s.trimHead head) (s.remnants children)).findings =
      (Node.branch head children).findings := by
  have hmembers : Node.branchFindings (s.trimHead head) (s.remnants children) =
      Node.branchFindings head children := by
    rw [Node.branchFindings_of_breach? (breach?_remnants h), branchFindings_trimHead,
      Node.branchFindings_of_breach? h]
  simp only [Node.findings, hmembers]
  cases head <;> rfl

/-! ## All nodes -/

/-- Nothing is reached below a branch that is dropped. -/
theorem filter_reaches_of_dropped {above : List Head} {nodes : List Node}
    (h : above.all s.keepsHead = false) : (Node.sitesAll above nodes).filter s.reaches = [] := by
  apply List.filter_eq_nil_iff.mpr
  intro site hsite
  obtain ⟨below, hbelow⟩ := Node.above_prefix_of_mem_sitesAll hsite
  rw [reaches, ← hbelow, List.all_append, h]
  exact Bool.false_ne_true

/-- Below branches that are all kept, what is found in the remnants is what was found at the sites
that are reached, in order. -/
theorem findings_remnants {above : List Head} {nodes : List Node}
    (habove : above.all s.keepsHead = true) (h : s.breachesAll nodes = []) :
    (Node.preorderAll (s.remnants nodes)).flatMap Node.findings =
      ((Node.sitesAll above nodes).filter s.reaches).flatMap fun site => site.node.findings := by
  induction nodes using Node.rowInduction generalizing above with
  | nil => rfl
  | leaf item rest ih =>
      have hrest := ih habove h
      rw [remnants, remnant, Node.sitesAll, Node.sites]
      by_cases hkeep : s.keepsLeaf item
      · have hreach : s.reaches ⟨above, .leaf item⟩ = true := by
          simp [reaches, keeps, habove, hkeep]
        simp [hkeep, hreach, Node.preorderAll, Node.preorder, findings_trimLeaf, hrest]
      · have hreach : s.reaches ⟨above, .leaf item⟩ = false := by
          simp [reaches, keeps, hkeep]
        simp [hkeep, hreach, hrest]
  | branch head children rest ihc ihr =>
      rw [breachesAll, breaches, List.append_eq_nil_iff] at h
      have hrest := ihr habove h.2
      rw [remnants, remnant, Node.sitesAll, Node.sites]
      by_cases hkeep : s.keepsHead head
      · obtain ⟨hown, hbelow⟩ : breach? head children = none ∧ s.breachesAll children = [] := by
          simpa [hkeep] using h.1
        have hchildren := @ihc (above ++ [head]) (by simp [List.all_append, habove, hkeep]) hbelow
        have hreach : s.reaches ⟨above, .branch head children⟩ = true := by
          simp [reaches, keeps, habove, hkeep]
        simp [hkeep, hreach, Node.preorderAll, Node.preorder, findings_remnant_branch hown,
          hchildren, hrest]
      · have hdropped : (above ++ [head]).all s.keepsHead = false := by
          simp [List.all_append, hkeep]
        have hreach : s.reaches ⟨above, .branch head children⟩ = false := by
          simp [reaches, keeps, hkeep]
        simp [hkeep, hreach, filter_reaches_of_dropped hdropped, hrest]

end Selection

theorem Outline.findings_eq_flatMap_sites (o : Outline) :
    o.findings = o.sites.flatMap fun site => site.node.findings := by
  rw [findings, walk, Node.walk_eq_preorderAll, ← Node.map_node_sitesAll [], List.flatMap_map]
  rfl

namespace Selection

/-- After pruning, an audit finds what it found before at the nodes that are left, in the same
order, and nothing else. -/
theorem prune_findings {s : Selection} {f g : Outline} (h : s.prune f = .ok g) :
    g.findings.Sublist f.findings ∧
      g.findings = (f.sites.filter s.reaches).flatMap fun site => site.node.findings := by
  obtain ⟨hbreaches, rfl⟩ := prune_eq_ok_iff.mp h
  have hleft : Outline.findings { f with children := s.remnants f.children } =
      (f.sites.filter s.reaches).flatMap fun site => site.node.findings := by
    rw [Outline.findings, Outline.walk, Node.walk_eq_preorderAll]
    exact @findings_remnants s [] f.children rfl hbreaches
  refine ⟨?_, hleft⟩
  rw [hleft, Outline.findings_eq_flatMap_sites]
  exact List.filter_sublist.flatMap _

end Selection

/-- A private class and a public one without names, a function in the private class that ends before
it starts, and a nested file. -/
def Outline.flawed : Outline where
  head := { path := "Draft.java", language := .java }
  children :=
    [.branch (.type { kind := .classType, name := "", visibility := .priv, location := {} })
      [.leaf (.function { name := "stir", visibility := .pub, location := { startByte := 1 } })],
     .branch (.type { kind := .classType, name := "", visibility := .pub, location := {} })
      [.branch (.file { path := "Inner.java", language := .java }) []]]

namespace Selection

-- What is wrong with the private class and inside it goes with it.
example :
    (Outline.flawed.sites.filter signatures.reaches).flatMap (fun site => site.node.findings) =
      [.unnamed (.type .classType) {}, .nestedFile "Inner.java" {}] := by
  decide

theorem prune_findings_flawed :
    ∃ g, signatures.prune .flawed = .ok g ∧ g.findings.Sublist Outline.flawed.findings ∧
      g.findings = (Outline.flawed.sites.filter signatures.reaches).flatMap fun site =>
        site.node.findings :=
  ⟨_, rfl, prune_findings rfl⟩

end Selection

end Precis
