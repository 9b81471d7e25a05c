import Precis.Proofs.Condensing.Contents
import Mathlib.Data.List.Forall2

/-! # Every fault is reported once

The nodes of a parse tree are listed in visiting order, each with the nodes around it. A report is
due for every missing node and for every faulty one, unless it stands in a faulty node, which is
reported as a whole. The reports of a tree are those that are due, in this order. -/

namespace Precis

namespace ParseTree

/-! ## Nodes with the nodes around them -/

/-- A node in the list of all nodes of a tree: the nodes around it, outermost first, and the node
itself. -/
structure Place where
  above : List ParseTree
  node : ParseTree

mutual

/-- The places of a node and of all nodes below it, each before its children. -/
def places (above : List ParseTree) : ParseTree → List Place
  | ⟨kind, role, named, missing, faulty, start, stop, children⟩ =>
    let t : ParseTree := ⟨kind, role, named, missing, faulty, start, stop, children⟩
    ⟨above, t⟩ :: placesAll (above ++ [t]) children

/-- The places of all nodes of a row of trees, each before its children. -/
def placesAll (above : List ParseTree) : List ParseTree → List Place
  | [] => []
  | t :: ts => t.places above ++ placesAll above ts

end

theorem placesAll_eq_flatMap (above ts : List ParseTree) :
    placesAll above ts = ts.flatMap (places above) := by
  induction ts with
  | nil => rfl
  | cons t ts ih => rw [placesAll, ih, List.flatMap_cons]

theorem places_eq (above : List ParseTree) (t : ParseTree) :
    t.places above = ⟨above, t⟩ :: t.children.flatMap (places (above ++ [t])) := by
  cases t
  rw [places, placesAll_eq_flatMap]

/-- Every node has one place, in visiting order. -/
theorem map_node_places (above : List ParseTree) (t : ParseTree) :
    (t.places above).map Place.node = t.preorder := by
  induction t using childInduction generalizing above with
  | node t ih =>
      rw [places_eq, preorder_eq, List.map_cons, List.map_flatMap]
      congr 1
      exact List.flatMap_congr fun c hc => ih c hc (above ++ [t])

/-! ## Reports that are due -/

/-- A node that is reported as a whole, with all that stands in it: faulty, but not missing. -/
def isBroken (t : ParseTree) : Bool :=
  t.faulty && !t.missing

/-- A place where something is to be reported: the node is missing or faulty, and none of the nodes
around it is reported as a whole. -/
def Place.isDue (p : Place) : Bool :=
  (p.node.missing || p.node.faulty) && !p.above.any isBroken

/-- The report of a node. -/
structure Announces (source : List Char) (t : ParseTree) (p : Problem) : Prop where
  severity : p.severity = if t.missing then .warning else .error
  code : p.code = some (if t.missing then "missing" else "syntax")
  message : p.message =
    if t.missing then "Missing syntax element: " ++ t.kind
    else "Syntax error near `" ++ String.ofList (excerpt (t.text source)) ++ "`"
  location : p.location = t.location source

/-- The report of a missing or faulty node. -/
def report (source : List Char) (t : ParseTree) : Problem :=
  if t.missing then t.missingReport source else t.faultReport source

theorem announces_report (source : List Char) (t : ParseTree) :
    Announces source t (t.report source) := by
  unfold report
  cases hmissing : t.missing with
  | true => exact ⟨by rw [hmissing]; rfl, by rw [hmissing]; rfl, by rw [hmissing]; rfl, rfl⟩
  | false => exact ⟨by rw [hmissing]; rfl, by rw [hmissing]; rfl, by rw [hmissing]; rfl, rfl⟩

/-- Nothing is due within a node that is reported as a whole. -/
theorem filter_isDue_of_broken {above : List ParseTree} (habove : above.any isBroken = true)
    (t : ParseTree) : (t.places above).filter Place.isDue = [] := by
  induction t using childInduction generalizing above with
  | node t ih =>
      have hbelow : (above ++ [t]).any isBroken = true := by simp [habove]
      rw [places_eq, List.filter_cons_of_neg (by simp [Place.isDue, habove]), List.filter_flatMap,
        List.flatMap_eq_nil_iff]
      intro c hc
      exact ih c hc hbelow

/-- The reports of a tree that no broken node surrounds are those that are due in it. -/
theorem reports_eq_map (source : List Char) {above : List ParseTree}
    (habove : above.any isBroken = false) (t : ParseTree) :
    t.reports source = ((t.places above).filter Place.isDue).map fun p => p.node.report source := by
  induction t using childInduction generalizing above with
  | node t ih =>
      have hbelow : t.isBroken = false → t.children.flatMap (reports source) =
          ((t.children.flatMap (places (above ++ [t]))).filter Place.isDue).map
            fun p => p.node.report source := by
        intro hintact
        rw [List.filter_flatMap, List.map_flatMap]
        exact List.flatMap_congr fun c hc => ih c hc (by simp [habove, hintact])
      rw [reports_eq, places_eq]
      cases hmissing : t.missing with
      | true =>
          -- A missing node is reported, and what stands below it all the same.
          have hdue : Place.isDue ⟨above, t⟩ = true := by simp [Place.isDue, hmissing, habove]
          rw [if_pos rfl, List.filter_cons_of_pos hdue, List.map_cons,
            hbelow (by simp [isBroken, hmissing])]
          simp [report, hmissing]
      | false =>
          rw [if_neg Bool.false_ne_true]
          cases hfaulty : t.faulty with
          | true =>
              have hdue : Place.isDue ⟨above, t⟩ = true := by simp [Place.isDue, hfaulty, habove]
              have hbroken : (above ++ [t]).any isBroken = true := by
                simp [isBroken, hmissing, hfaulty]
              have hnone :
                  (t.children.flatMap (places (above ++ [t]))).filter Place.isDue = [] := by
                rw [List.filter_flatMap, List.flatMap_eq_nil_iff]
                exact fun c _ => filter_isDue_of_broken hbroken c
              rw [if_pos rfl, List.filter_cons_of_pos hdue, hnone]
              simp [report, hmissing]
          | false =>
              have hnot : ¬ Place.isDue ⟨above, t⟩ = true := by
                simp [Place.isDue, hmissing, hfaulty]
              rw [if_neg Bool.false_ne_true, List.filter_cons_of_neg hnot,
                hbelow (by simp [isBroken, hfaulty])]

/-! ## Trees without a fault -/

theorem hasFault_eq_false_iff (t : ParseTree) :
    t.hasFault = false ↔ ∀ u ∈ t.preorder, u.missing = false ∧ u.faulty = false := by
  induction t using childInduction with
  | node t ih =>
      rw [hasFault_eq, Bool.or_eq_false_iff, Bool.or_eq_false_iff, preorder_eq,
        List.forall_mem_cons]
      refine and_congr_right fun _ => ?_
      simp only [List.any_eq_false, Bool.not_eq_true, List.forall_mem_flatMap]
      exact forall₂_congr ih

/-- A tree with a fault has something to report. -/
theorem reports_eq_nil_iff (source : List Char) (t : ParseTree) :
    t.reports source = [] ↔ t.hasFault = false := by
  refine ⟨?_, reports_eq_nil source⟩
  induction t using childInduction with
  | node t ih =>
      intro hnone
      rw [reports_eq] at hnone
      split_ifs at hnone with hmissing hfaulty
      rw [List.flatMap_eq_nil_iff] at hnone
      rw [hasFault_eq, Bool.or_eq_false_iff, Bool.or_eq_false_iff, List.any_eq_false]
      refine ⟨⟨by simpa using hmissing, by simpa using hfaulty⟩, ?_⟩
      intro c hc
      simpa using ih c hc (hnone c hc)

/-- The reports of a tree are, in visiting order, one for each missing node and one for each faulty
node, those in a node that is reported as a whole left out. There is none exactly if no node is
missing or faulty, so that asking for faults first hides no report. -/
theorem reports_exact (source : List Char) (t : ParseTree) :
    (t.places []).map Place.node = t.preorder ∧
    List.Forall₂ (fun p problem => Announces source p.node problem)
      ((t.places []).filter Place.isDue) (t.reports source) ∧
    (t.reports source = [] ↔ ∀ u ∈ t.preorder, u.missing = false ∧ u.faulty = false) ∧
    (if t.hasFault then t.reports source else []) = t.reports source := by
  refine ⟨map_node_places [] t, ?_, ?_, ?_⟩
  · rw [reports_eq_map source (List.any_nil) t, List.forall₂_map_right_iff, List.forall₂_same]
    exact fun p _ => announces_report source p.node
  · rw [reports_eq_nil_iff, hasFault_eq_false_iff]
  · cases hfault : t.hasFault with
    | true => rfl
    | false => exact (reports_eq_nil source hfault).symm

end ParseTree

end Precis
