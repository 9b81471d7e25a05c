import Precis.Proofs.Placing.Nesting

/-! # The order of the nodes of Java sources

The members of a Java source stand in the order of the source, with one exception. A comment that
is no doc comment is a node at once, also behind a doc comment that is still waiting. If the doc
comment then finds no declaration and stands by itself, it stands behind the comment that it
precedes in the source. -/

namespace Precis

/-- Nodes start one after the other, as their places in the source have it. -/
def InOrder (nodes : List Node) : Prop :=
  nodes.Pairwise fun a b => a.location.startByte ≤ b.location.startByte

@[simp] theorem inOrder_nil : InOrder [] := List.Pairwise.nil

@[simp] theorem inOrder_cons {node : Node} {rest : List Node} :
    InOrder (node :: rest) ↔
      (∀ other ∈ rest, node.location.startByte ≤ other.location.startByte) ∧ InOrder rest :=
  List.pairwise_cons

theorem inOrder_append {xs ys : List Node} :
    InOrder (xs ++ ys) ↔ InOrder xs ∧ InOrder ys ∧
      ∀ x ∈ xs, ∀ y ∈ ys, x.location.startByte ≤ y.location.startByte :=
  List.pairwise_append

@[simp] theorem Node.location_withDoc (node : Node) (c : Comment) :
    (node.withDoc c).location = node.location := by
  rcases node with ⟨_ | _ | _, _⟩ | (_ | _ | _ | _ | _ | _) <;> rfl

/-! ## Pieces in turn -/

namespace Piece

/-- The bytes at which the doc comment and the nodes of a piece start. -/
def starts (piece : Piece) : List Nat :=
  piece.doc?.toList.map (·.location.startByte) ++ piece.nodes.map (·.location.startByte)

/-- A piece stands before another one; a doc comment does so by at least one byte. -/
def Before (p q : Piece) : Prop :=
  ∀ a ∈ p.starts, ∀ b ∈ q.starts, a ≤ b ∧ (p.doc?.isSome → a < b)

end Piece

/-- Pieces stand one before the other, and their nodes are in order. -/
structure InTurn (pieces : List Piece) : Prop where
  before : pieces.Pairwise Piece.Before
  nodes : ∀ piece ∈ pieces, InOrder piece.nodes

theorem inTurn_cons {piece : Piece} {rest : List Piece} :
    InTurn (piece :: rest) ↔
      (∀ other ∈ rest, piece.Before other) ∧ InOrder piece.nodes ∧ InTurn rest := by
  constructor
  · rintro ⟨hbefore, hnodes⟩
    obtain ⟨hhere, hrest⟩ := List.pairwise_cons.mp hbefore
    obtain ⟨hnode, hothers⟩ := List.forall_mem_cons.mp hnodes
    exact ⟨hhere, hnode, hrest, hothers⟩
  · rintro ⟨hhere, hnode, hrest, hothers⟩
    exact ⟨List.pairwise_cons.mpr ⟨hhere, hrest⟩, List.forall_mem_cons.mpr ⟨hnode, hothers⟩⟩

/-- A doc comment that waits in front of the pieces finds nothing to document and stands by
itself. -/
def standsAlone : List Piece → Bool
  | [] => true
  | .doc _ :: rest => standsAlone rest
  | .aside _ :: rest => standsAlone rest
  | .element nodes :: _ => !nodes.isEmpty && !nodes.any fun node => node.kind.isDeclaration
  | .group _ :: _ => true

/-- A node is put down behind a doc comment that ends up standing by itself. -/
def Overtaking (pieces : List Piece) : Prop :=
  ∃ before c node after, pieces = before ++ .doc c :: .aside node :: after ∧
    standsAlone after = true

@[simp] theorem not_overtaking_nil : ¬ Overtaking [] := by
  rintro ⟨before, c, node, after, h, -⟩
  cases before <;> cases h

theorem overtaking_cons {piece : Piece} {rest : List Piece} :
    Overtaking (piece :: rest) ↔
      (∃ c node after, piece = .doc c ∧ rest = .aside node :: after ∧ standsAlone after = true) ∨
        Overtaking rest := by
  constructor
  · rintro ⟨before, c, node, after, h, halone⟩
    cases before with
    | nil =>
        obtain ⟨rfl, rfl⟩ := List.cons.inj h
        exact .inl ⟨c, node, after, rfl, rfl, halone⟩
    | cons first before =>
        obtain ⟨-, rfl⟩ := List.cons.inj h
        exact .inr ⟨before, c, node, after, rfl, halone⟩
  · rintro (⟨c, node, after, rfl, rfl, halone⟩ | ⟨before, c, node, after, rfl, halone⟩)
    · exact ⟨[], c, node, after, rfl, halone⟩
    · exact ⟨piece :: before, c, node, after, rfl, halone⟩

/-- A doc comment that finds something to document is not overtaken itself. -/
theorem overtaking_doc_cons_of_not_standsAlone {c : Comment} {rest : List Piece}
    (h : standsAlone rest = false) : Overtaking (.doc c :: rest) ↔ Overtaking rest := by
  rw [overtaking_cons, or_iff_right]
  rintro ⟨_, node, after, -, rfl, halone⟩
  rw [standsAlone, halone] at h
  cases h

/-! ## Arranged pieces -/

section

variable {n : Nat} {waiting : Option Comment} {nodes : List Node} {pieces : List Piece}

theorem location_of_mem_standalone {node : Node} (h : node ∈ standalone waiting) :
    ∃ c ∈ waiting, node.location = c.location := by
  obtain ⟨c, hc, rfl⟩ := Option.map_eq_some_iff.mp (Option.mem_toList.mp h)
  exact ⟨c, hc, rfl⟩

theorem location_of_mem_document {node : Node} (h : node ∈ document waiting nodes) :
    (∃ original ∈ nodes, node.location = original.location) ∨
      standsAlone [.element nodes] = true ∧ ∃ c ∈ waiting, node.location = c.location := by
  unfold document at h
  split at h
  · exact .inl ⟨node, h, rfl⟩
  · rename_i c
    split at h
    · cases h
    rename_i hsome
    split at h
    · obtain ⟨original, hmem, rfl⟩ := List.mem_map.mp h
      exact .inl ⟨original, hmem, Node.location_withDoc original c⟩
    · rename_i hplain
      rcases List.mem_cons.mp h with rfl | hmem
      · exact .inr ⟨by simp only [standsAlone, hsome, hplain]; rfl, c, rfl, rfl⟩
      · exact .inl ⟨node, hmem, rfl⟩

/-- Nothing starts before all pieces, except for a waiting doc comment that ends up standing by
itself. -/
theorem le_of_mem_arrangeFrom (hpieces : ∀ piece ∈ pieces, ∀ a ∈ piece.starts, n ≤ a)
    (hwaiting : ∀ c ∈ waiting, standsAlone pieces = true → n ≤ c.location.startByte) :
    ∀ node ∈ arrangeFrom waiting pieces, n ≤ node.location.startByte := by
  induction pieces generalizing waiting with
  | nil =>
      intro node hnode
      obtain ⟨c, hc, hlocation⟩ := location_of_mem_standalone hnode
      exact hlocation ▸ hwaiting c hc rfl
  | cons piece rest ih =>
      obtain ⟨hhere, hrest⟩ := List.forall_mem_cons.mp hpieces
      have hnone : ∀ node ∈ arrangeFrom none rest, n ≤ node.location.startByte :=
        ih hrest (by simp)
      cases piece with
      | doc c =>
          apply ih hrest
          rintro _ ⟨⟩ halone
          cases waiting with
          | none => exact hhere _ List.mem_cons_self
          | some first => exact hwaiting first rfl halone
      | aside node =>
          exact List.forall_mem_cons.mpr ⟨hhere _ List.mem_cons_self, ih hrest hwaiting⟩
      | element nodes =>
          refine List.forall_mem_append.mpr ⟨?_, hnone⟩
          intro node hnode
          rcases location_of_mem_document hnode with
            ⟨original, hmem, hlocation⟩ | ⟨halone, c, hc, hlocation⟩
          · exact hlocation ▸ hhere _ (List.mem_map_of_mem hmem)
          · exact hlocation ▸ hwaiting c hc halone
      | group nodes =>
          refine List.forall_mem_append.mpr ⟨List.forall_mem_append.mpr ⟨?_, ?_⟩, hnone⟩
          · intro node hnode
            obtain ⟨c, hc, hlocation⟩ := location_of_mem_standalone hnode
            exact hlocation ▸ hwaiting c hc rfl
          · intro node hnode
            exact hhere _ (List.mem_map_of_mem hnode)

/-- A doc comment that ends up standing by itself is among the nodes. -/
theorem exists_mem_arrangeFrom {c : Comment} (h : standsAlone pieces = true) :
    ∃ node ∈ arrangeFrom (some c) pieces, node.location.startByte = c.location.startByte := by
  induction pieces generalizing c with
  | nil => exact ⟨_, List.mem_cons_self, rfl⟩
  | cons piece rest ih =>
      cases piece with
      | doc d => exact ih h
      | aside node =>
          obtain ⟨alone, hmem, hstart⟩ := ih h
          exact ⟨alone, List.mem_cons_of_mem _ hmem, hstart⟩
      | element nodes =>
          simp only [standsAlone, Bool.and_eq_true, Bool.not_eq_true'] at h
          refine ⟨.leaf (.comment c), ?_, rfl⟩
          simp [arrangeFrom, document, h.1, h.2]
      | group nodes => exact ⟨.leaf (.comment c), by simp [arrangeFrom, standalone], rfl⟩

theorem inOrder_document (hnodes : InOrder nodes)
    (hwaiting : ∀ c ∈ waiting, ∀ node ∈ nodes, c.location.startByte ≤ node.location.startByte) :
    InOrder (document waiting nodes) := by
  unfold document
  split
  · exact hnodes
  · rename_i c
    split
    · exact inOrder_nil
    split
    · exact List.pairwise_map.mpr (by simpa only [Node.location_withDoc] using! hnodes)
    · exact inOrder_cons.mpr ⟨hwaiting c rfl, hnodes⟩

theorem inOrder_standalone : InOrder (standalone waiting) := by
  cases waiting <;> simp [standalone]

theorem le_of_before {piece : Piece} (h : ∀ other ∈ pieces, piece.Before other) :
    ∀ a ∈ piece.starts, ∀ node ∈ arrangeFrom none pieces, a ≤ node.location.startByte := by
  intro a ha
  apply le_of_mem_arrangeFrom
  · intro other hother b hb
    exact (h other hother a ha b hb).1
  · simp

/-- A node that is put down in front of the rest is in order with it, unless a doc comment before it
is still waiting and ends up standing by itself. -/
theorem forall_le_arrangeFrom_iff {node : Node}
    (h : ∀ piece ∈ pieces, (Piece.aside node).Before piece)
    (hwaiting : ∀ c ∈ waiting, c.location.startByte < node.location.startByte) :
    (∀ other ∈ arrangeFrom waiting pieces, node.location.startByte ≤ other.location.startByte) ↔
      (waiting.isSome → standsAlone pieces = false) := by
  constructor
  · intro hle hsome
    obtain ⟨c, hc⟩ := Option.isSome_iff_exists.mp hsome
    subst hc
    by_contra halone
    obtain ⟨other, hmem, hstart⟩ := @exists_mem_arrangeFrom pieces c (by simpa using halone)
    have hge := hle other hmem
    have hlt := hwaiting c rfl
    omega
  · intro hdocuments
    apply le_of_mem_arrangeFrom
    · intro piece hpiece a ha
      exact (h piece hpiece _ List.mem_cons_self a ha).1
    · intro c hc halone
      rw [hdocuments (Option.isSome_iff_exists.mpr ⟨c, hc⟩)] at halone
      cases halone

/-- Nodes that start where a piece or a waiting doc comment starts are in order with what
follows. -/
theorem inOrder_append_arrangeFrom {piece : Piece} {released : List Node}
    (hbefore : ∀ other ∈ pieces, piece.Before other)
    (hwaiting : ∀ c ∈ waiting, ∀ other ∈ pieces, (Piece.doc c).Before other)
    (hreleased : InOrder released)
    (hplace : ∀ node ∈ released, node.location.startByte ∈ piece.starts ∨
      ∃ c ∈ waiting, node.location = c.location) :
    InOrder (released ++ arrangeFrom none pieces) ↔ InOrder (arrangeFrom none pieces) := by
  rw [inOrder_append, and_iff_right hreleased, and_iff_left]
  intro node hnode
  rcases hplace node hnode with hmem | ⟨c, hc, hlocation⟩
  · exact le_of_before hbefore _ hmem
  · rw [hlocation]
    exact le_of_before (hwaiting c hc) _ List.mem_cons_self

/-- Pieces in turn are arranged in order, unless a node is put down behind a doc comment that ends
up standing by itself. -/
theorem inOrder_arrangeFrom_iff (h : InTurn pieces)
    (hwaiting : ∀ c ∈ waiting, ∀ piece ∈ pieces, (Piece.doc c).Before piece) :
    InOrder (arrangeFrom waiting pieces) ↔
      ¬ Overtaking ((waiting.map Piece.doc).toList ++ pieces) := by
  -- A doc comment that is waiting counts as one more piece in front of the others.
  induction pieces generalizing waiting with
  | nil => cases waiting <;> simp [arrangeFrom, standalone, overtaking_cons]
  | cons piece rest ih =>
      obtain ⟨hbefore, hnodes, hrest⟩ := inTurn_cons.mp h
      have hlater : ∀ c ∈ waiting, ∀ other ∈ rest, (Piece.doc c).Before other :=
        fun c hc other hother => hwaiting c hc other (List.mem_cons_of_mem _ hother)
      have hfirst : ∀ c ∈ waiting, ∀ a ∈ piece.starts, c.location.startByte < a :=
        fun c hc a ha => (hwaiting c hc piece List.mem_cons_self _ List.mem_cons_self a ha).2 rfl
      have hnone : InOrder (arrangeFrom none rest) ↔ ¬ Overtaking rest :=
        ih hrest (by simp)
      cases piece with
      | doc c =>
          cases waiting with
          | none =>
              apply ih hrest
              rintro _ ⟨⟩
              exact hbefore
          | some first =>
              -- Doc comments in a row start where the first of them starts.
              have hjoined : InOrder (arrangeFrom (some (first.append c)) rest) ↔
                  ¬ Overtaking (.doc (first.append c) :: rest) := by
                apply ih hrest
                rintro _ ⟨⟩
                exact hlater first rfl
              rw [arrangeFrom, enqueue, hjoined]
              simp [overtaking_cons]
      | aside node =>
          -- The node comes before all that is still to come, also before what is waiting.
          have hwait : ∀ c ∈ waiting, c.location.startByte < node.location.startByte :=
            fun c hc => hfirst c hc _ List.mem_cons_self
          rw [arrangeFrom, inOrder_cons, forall_le_arrangeFrom_iff hbefore hwait, ih hrest hlater]
          cases waiting with
          | none => simp [overtaking_cons]
          | some c =>
              cases halone : standsAlone rest with
              | true => simp [overtaking_cons, halone]
              | false =>
                  have hdoc : Overtaking (.doc c :: rest) ↔ Overtaking rest :=
                    overtaking_doc_cons_of_not_standsAlone halone
                  have hpassed : Overtaking (.doc c :: .aside node :: rest) ↔ Overtaking rest := by
                    simp [overtaking_cons, halone]
                  simp [hdoc, hpassed]
      | element nodes =>
          have hdocument : InOrder (document waiting nodes) := by
            apply inOrder_document hnodes
            intro c hc node hnode
            exact Nat.le_of_lt (hfirst c hc _ (List.mem_map_of_mem hnode))
          rw [arrangeFrom, inOrder_append_arrangeFrom hbefore hlater hdocument, hnone]
          · cases waiting <;> simp [overtaking_cons]
          · intro node hnode
            rcases location_of_mem_document hnode with
              ⟨original, hmem, hlocation⟩ | ⟨-, hdoc⟩
            · exact .inl (hlocation ▸ List.mem_map_of_mem hmem)
            · exact .inr hdoc
      | group nodes =>
          have hgroup : InOrder (standalone waiting ++ nodes) := by
            refine inOrder_append.mpr ⟨inOrder_standalone, hnodes, ?_⟩
            intro x hx y hy
            obtain ⟨c, hc, hlocation⟩ := location_of_mem_standalone hx
            exact hlocation ▸ Nat.le_of_lt (hfirst c hc _ (List.mem_map_of_mem hy))
          rw [arrangeFrom, inOrder_append_arrangeFrom hbefore hlater hgroup, hnone]
          · cases waiting <;> simp [overtaking_cons]
          · intro node hnode
            rcases List.mem_append.mp hnode with hdoc | hmem
            · exact .inr (location_of_mem_standalone hdoc)
            · exact .inl (List.mem_map_of_mem hmem)

theorem inOrder_arrange_iff (h : InTurn pieces) : InOrder (arrange pieces) ↔ ¬ Overtaking pieces :=
  @inOrder_arrangeFrom_iff none pieces h (by simp)

end

/-! ## Parse trees with their ranges in order -/

namespace ParseTree

variable {t : ParseTree}

/-- What covers some text covers some bytes. -/
theorem start_lt_stop_of_text_ne_nil (source : List Char) (h : t.text source ≠ []) :
    t.start < t.stop := by
  by_contra hle
  apply h
  unfold text Text.slice?
  split
  · have hzero : t.stop - t.start = 0 := by omega
    cases Text.dropBytes? t.start source <;> simp [hzero, Text.takeBytes?]
  · rfl

/-- The named children of a node are in order. -/
theorem WellSpanned.parts (h : t.WellSpanned) :
    t.parts.Pairwise fun a b => a.start ≤ a.stop ∧ a.stop ≤ b.start := by
  apply (h.here.2.sublist t.parts_sublist).imp_of_mem
  intro a b ha hb hab
  exact ⟨(h.part ha).here.1, hab⟩

end ParseTree

/-! ## The members of a Java source -/

namespace Java

variable {source : List Char} {owner : Owner} {t : ParseTree}

/-- A comment that documents what follows it. -/
def IsDoc (source : List Char) (t : ParseTree) : Prop :=
  isComment t = true ∧ (comment source t).format = .doc

/-- A comment that stands for itself. -/
def IsRemark (source : List Char) (t : ParseTree) : Prop :=
  isComment t = true ∧ (comment source t).format ≠ .doc

/-- Among the children of a node a doc comment stands in front of a remark and finds nothing to
document: apart from comments it is followed by a package or import declaration or by nothing. -/
def Overtaken (source : List Char) (t : ParseTree) : Prop :=
  ∃ before doc remark after, t.parts = before ++ doc :: remark :: after ∧
    IsDoc source doc ∧ IsRemark source remark ∧
    ∀ next ∈ after.find? fun u => !isComment u,
      next.kind = "package_declaration" ∨ next.kind = "import_declaration"

/-- What a child of a body contributes to it. -/
def memberPiece (source : List Char) (owner : Owner) (t : ParseTree) : Piece :=
  if isComment t then commentPiece source t else .element (member source owner t)

theorem memberPiece_of_isDoc (h : IsDoc source t) :
    memberPiece source owner t = .doc (comment source t) := by
  simp [memberPiece, commentPiece, h.1, h.2]

theorem memberPiece_of_isRemark (h : IsRemark source t) :
    memberPiece source owner t = .aside (.leaf (.comment (comment source t))) := by
  simp [memberPiece, commentPiece, h.1, h.2]

/-- A child is a doc comment, a remark or no comment at all. -/
theorem memberPiece_cases (source : List Char) (owner : Owner) (t : ParseTree) :
    IsDoc source t ∧ memberPiece source owner t = .doc (comment source t) ∨
    IsRemark source t ∧
      memberPiece source owner t = .aside (.leaf (.comment (comment source t))) ∨
    isComment t = false ∧ memberPiece source owner t = .element (member source owner t) := by
  cases hcomment : isComment t with
  | false => exact .inr (.inr ⟨rfl, by simp [memberPiece, hcomment]⟩)
  | true =>
      by_cases hformat : (comment source t).format = .doc
      · have hdoc : IsDoc source t := ⟨hcomment, hformat⟩
        exact .inl ⟨hdoc, memberPiece_of_isDoc hdoc⟩
      · have hremark : IsRemark source t := ⟨hcomment, hformat⟩
        exact .inr (.inl ⟨hremark, memberPiece_of_isRemark hremark⟩)

theorem isDoc_of_memberPiece (h : (memberPiece source owner t).doc?.isSome = true) :
    IsDoc source t := by
  rcases memberPiece_cases source owner t with
    ⟨hdoc, -⟩ | ⟨-, hpiece⟩ | ⟨-, hpiece⟩
  · exact hdoc
  all_goals
    rw [hpiece] at h
    cases h

theorem isRemark_of_memberPiece {node : Node} (h : memberPiece source owner t = .aside node) :
    IsRemark source t := by
  rcases memberPiece_cases source owner t with
    ⟨-, hpiece⟩ | ⟨hremark, -⟩ | ⟨-, hpiece⟩
  case inr.inl => exact hremark
  all_goals
    rw [hpiece] at h
    cases h

theorem IsDoc.start_lt_stop (h : IsDoc source t) : t.start < t.stop := by
  apply ParseTree.start_lt_stop_of_text_ne_nil source
  intro htext
  have hformat := h.2
  simp only [comment, htext] at hformat
  split at hformat
  · cases hformat
  · cases hformat

/-- All that a child contributes starts where the child starts. -/
theorem eq_start_of_mem_starts : ∀ a ∈ (memberPiece source owner t).starts, a = t.start := by
  rcases memberPiece_cases source owner t with
    ⟨-, hpiece⟩ | ⟨-, hpiece⟩ | ⟨-, hpiece⟩
  · rw [hpiece]
    exact List.forall_mem_singleton.mpr rfl
  · rw [hpiece]
    exact List.forall_mem_singleton.mpr rfl
  · intro a ha
    rw [hpiece] at ha
    obtain ⟨node, hnode, rfl⟩ := List.mem_map.mp ha
    rw [(mem_member hnode).1]
    rfl

theorem inTurn_memberPieces (owner : Owner) (h : t.WellSpanned) :
    InTurn (t.parts.map (memberPiece source owner)) := by
  constructor
  · rw [List.pairwise_map]
    apply h.parts.imp
    rintro a b ⟨hrange, hab⟩ m hm n hn
    rw [eq_start_of_mem_starts m hm, eq_start_of_mem_starts n hn]
    exact ⟨Nat.le_trans hrange hab, fun hdoc =>
      Nat.lt_of_lt_of_le (isDoc_of_memberPiece hdoc).start_lt_stop hab⟩
  · intro piece hpiece
    obtain ⟨part, -, rfl⟩ := List.mem_map.mp hpiece
    have hstart : ∀ node ∈ (memberPiece source owner part).nodes,
        node.location.startByte = part.start := fun node hnode =>
      eq_start_of_mem_starts _ (List.mem_append_right _ (List.mem_map_of_mem hnode))
    apply List.pairwise_of_forall_mem_list
    intro a ha b hb
    exact Nat.le_of_eq ((hstart a ha).trans (hstart b hb).symm)

/-! ### What finds nothing to document -/

theorem isDeclaration_of_mem_member (hpackage : t.kind ≠ "package_declaration")
    (himport : t.kind ≠ "import_declaration") :
    ∀ node ∈ member source owner t, node.kind.isDeclaration = true := by
  intro node hnode
  by_cases henum : t.kind = "enum_declaration"
  · rw [member_of_enum source owner t henum] at hnode
    obtain ⟨head, rfl, -⟩ := mem_declared hnode fun _ => ⟨rfl, rfl⟩
    rfl
  rw [member, if_neg henum] at hnode
  split at hnode
  · obtain ⟨head, rfl, -⟩ := mem_declared hnode fun _ => ⟨rfl, rfl⟩
    rfl
  split at hnode
  · obtain ⟨head, rfl, -⟩ := mem_declared hnode fun _ => ⟨rfl, rfl⟩
    rfl
  split at hnode
  · obtain ⟨head, rfl, -⟩ := mem_declared hnode fun _ => ⟨rfl, rfl⟩
    rfl
  rw [leafMember, if_neg hpackage, if_neg himport] at hnode
  split at hnode
  · obtain ⟨name, -, rfl⟩ := Option.map_eq_some_iff.mp (Option.mem_toList.mp hnode)
    rfl
  split at hnode
  · obtain ⟨name, -, rfl⟩ := Option.map_eq_some_iff.mp (Option.mem_toList.mp hnode)
    rfl
  split at hnode
  · obtain ⟨declarator, -, hfield⟩ := List.mem_filterMap.mp hnode
    obtain ⟨name, -, rfl⟩ := Option.map_eq_some_iff.mp hfield
    rfl
  · cases hnode

theorem standsAlone_member_cons (rest : List Piece) :
    standsAlone (.element (member source owner t) :: rest) = true ↔
      t.kind = "package_declaration" ∨ t.kind = "import_declaration" := by
  by_cases hpackage : t.kind = "package_declaration"
  · simp [standsAlone, member_of_package hpackage, hpackage, packageNode, Node.kind,
      Head.kind, NodeKind.isDeclaration]
  by_cases himport : t.kind = "import_declaration"
  · simp [standsAlone, member_of_import himport, himport, importNode, Node.kind,
      Leaf.kind, NodeKind.isDeclaration]
  · simp only [hpackage, himport, or_self, iff_false, standsAlone, Bool.and_eq_true,
      Bool.not_eq_true', List.isEmpty_eq_false_iff, List.any_eq_false, not_and, not_forall]
    intro hsome
    obtain ⟨node, hnode⟩ := List.exists_mem_of_ne_nil _ hsome
    exact ⟨node, hnode, fun h => h (isDeclaration_of_mem_member hpackage himport node hnode)⟩

/-- A doc comment in front of children stands by itself if the next child that is no comment is a
package or import declaration, or if there is none. -/
theorem standsAlone_memberPieces (parts : List ParseTree) :
    standsAlone (parts.map (memberPiece source owner)) = true ↔
      ∀ next ∈ parts.find? fun u => !isComment u,
        next.kind = "package_declaration" ∨ next.kind = "import_declaration" := by
  induction parts with
  | nil => simp [standsAlone]
  | cons t rest ih =>
      rw [List.map_cons]
      rcases memberPiece_cases source owner t with
        ⟨hdoc, hpiece⟩ | ⟨hremark, hpiece⟩ | ⟨helement, hpiece⟩
      · rw [hpiece, standsAlone, ih, List.find?_cons_of_neg (by simp [hdoc.1])]
      · rw [hpiece, standsAlone, ih, List.find?_cons_of_neg (by simp [hremark.1])]
      · rw [hpiece, standsAlone_member_cons, List.find?_cons_of_pos (by simp [helement])]
        simp

theorem overtaking_memberPieces :
    Overtaking (t.parts.map (memberPiece source owner)) ↔ Overtaken source t := by
  constructor
  · rintro ⟨front, c, node, back, hpieces, halone⟩
    obtain ⟨before, rest, hparts, rfl, hrest⟩ := List.map_eq_append_iff.mp hpieces
    obtain ⟨doc, rest', rfl, hdoc, hrest'⟩ := List.map_eq_cons_iff.mp hrest
    obtain ⟨remark, after, rfl, hremark, rfl⟩ := List.map_eq_cons_iff.mp hrest'
    refine ⟨before, doc, remark, after, hparts, ?_, isRemark_of_memberPiece hremark, ?_⟩
    · exact @isDoc_of_memberPiece source owner doc (by rw [hdoc]; rfl)
    · exact (standsAlone_memberPieces after).mp halone
  · rintro ⟨before, doc, remark, after, hparts, hdoc, hremark, hnext⟩
    refine ⟨before.map (memberPiece source owner), comment source doc,
      .leaf (.comment (comment source remark)), after.map (memberPiece source owner), ?_,
      (standsAlone_memberPieces after).mpr hnext⟩
    rw [hparts, List.map_append, List.map_cons, List.map_cons, memberPiece_of_isDoc hdoc,
      memberPiece_of_isRemark hremark]

/-- The members among the children of a node are in order, unless a doc comment among the children
is overtaken. -/
theorem members_inOrder_iff (h : t.WellSpanned) (owner : Owner) :
    InOrder (members source owner t) ↔ ¬ Overtaken source t := by
  rw [members_eq, ← @overtaking_memberPieces source owner]
  exact inOrder_arrange_iff (inTurn_memberPieces owner h)

/-! ### Bodies -/

/-- In a record the components stand in front of what stands in the body, as the grammar has it. -/
def ComponentsFirst (t : ParseTree) : Prop :=
  t.kind = "record_declaration" →
    ∀ list ∈ t.child? "parameters", ∀ block ∈ t.child? "body",
      ∀ component ∈ list.parts, ∀ part ∈ block.parts, component.start ≤ part.start

instance (t : ParseTree) : Decidable (ComponentsFirst t) := by
  delta ComponentsFirst
  infer_instance

theorem body_inOrder_iff (h : t.WellSpanned) (owner : Owner) :
    InOrder (body source owner t) ↔ ∀ block ∈ t.child? "body", ¬ Overtaken source block := by
  rw [body_eq]
  cases hblock : t.child? "body" with
  | none => simp
  | some block => simpa using! members_inOrder_iff (h.child? hblock) owner

theorem location_of_componentField? {node : Node} (h : componentField? source t = some node) :
    node.location = t.location source := by
  unfold componentField? at h
  split at h
  · obtain ⟨name, -, rfl⟩ := Option.map_eq_some_iff.mp h
    rfl
  · cases h

theorem exists_component_of_mem {node : Node} (h : node ∈ componentFields source t) :
    ∃ list ∈ t.child? "parameters", ∃ component ∈ list.parts,
      node.location = component.location source := by
  unfold componentFields at h
  split at h
  · rename_i list hlist
    obtain ⟨component, hcomponent, hfield⟩ := List.mem_filterMap.mp h
    exact ⟨list, hlist, component, hcomponent, location_of_componentField? hfield⟩
  · cases h

theorem componentFields_inOrder (h : t.WellSpanned) : InOrder (componentFields source t) := by
  unfold componentFields
  split
  · rename_i list hlist
    apply List.pairwise_filterMap.mpr
    apply (ParseTree.WellSpanned.parts (h.child? hlist)).imp
    rintro a b ⟨hrange, hab⟩ x hx y hy
    rw [location_of_componentField? hx, location_of_componentField? hy]
    exact Nat.le_trans hrange hab
  · exact inOrder_nil

/-- No member starts in front of all children. -/
theorem le_of_mem_members {n : Nat} (h : ∀ part ∈ t.parts, n ≤ part.start) :
    ∀ node ∈ members source owner t, n ≤ node.location.startByte := by
  rw [members_eq]
  apply le_of_mem_arrangeFrom
  · intro piece hpiece a ha
    obtain ⟨part, hpart, rfl⟩ := List.mem_map.mp hpiece
    rw [@eq_start_of_mem_starts source owner part a ha]
    exact h part hpart
  · simp

theorem record_inOrder_iff (h : t.WellSpanned) (hkind : t.kind = "record_declaration")
    (hfirst : ComponentsFirst t) (owner : Owner) :
    InOrder (componentFields source t ++ body source owner t) ↔
      ∀ block ∈ t.child? "body", ¬ Overtaken source block := by
  rw [inOrder_append, and_iff_right (componentFields_inOrder h), and_iff_left, body_inOrder_iff h]
  intro field hfield
  obtain ⟨list, hlist, component, hcomponent, hlocation⟩ := exists_component_of_mem hfield
  rw [body_eq, hlocation]
  cases hblock : t.child? "body" with
  | none => exact List.forall_mem_nil _
  | some block =>
      exact le_of_mem_members fun part hpart =>
        hfirst hkind list hlist block hblock component hcomponent part hpart

/-! ## The order of an outline -/

/-- A node of the parse tree is made into a branch, which may have been given a doc comment. -/
def Becomes (source : List Char) (t : ParseTree) (head : Head) (children : List Node) : Prop :=
  ∃ owner original, .branch original children ∈ member source owner t ∧
    (head = original ∨ ∃ c, head = original.withDoc c)

theorem Becomes.withDoc {head : Head} {children : List Node} (h : Becomes source t head children)
    (c : Comment) : Becomes source t (head.withDoc c) children := by
  obtain ⟨owner, original, hmem, rfl | ⟨d, rfl⟩⟩ := h
  · exact ⟨owner, head, hmem, .inr ⟨c, rfl⟩⟩
  · refine ⟨owner, original, hmem, .inr ⟨c, ?_⟩⟩
    cases original <;> rfl

/-- What a class or an interface owns is in order, unless a doc comment in its body is overtaken. -/
theorem inOrder_iff_of_mem_member (h : t.WellSpanned) (hfirst : ComponentsFirst t) {head : Head}
    {children : List Node} (hmem : .branch head children ∈ member source owner t)
    (hkind : head.kind = .type .classType ∨ head.kind = .type .interfaceType) :
    InOrder children ↔ ∀ block ∈ t.child? "body", ¬ Overtaken source block := by
  cases (mem_member hmem).2 head children rfl with
  | package head => simp [Head.kind] at hkind
  | declared head owner => exact body_inOrder_iff h owner
  | record head hrecord => exact record_inOrder_iff h hrecord hfirst .classType
  | enum head henum => simp [Head.kind, henum] at hkind

/-- A class or an interface comes from a declaration, and what it owns is in order unless a doc
comment in the body of that declaration is overtaken. -/
def Ordered (source : List Char) (tree : ParseTree) (head : Head) (children : List Node) : Prop :=
  head.kind = .type .classType ∨ head.kind = .type .interfaceType →
    ∃ t ∈ tree.preorder, Becomes source t head children ∧
      (InOrder children ↔ ∀ block ∈ t.child? "body", ¬ Overtaken source block)

theorem outline_ordered {tree : ParseTree} (h : tree.WellSpanned)
    (hfirst : tree.Throughout ComponentsFirst) :
    Node.EveryBranch (Ordered source tree) (outline source tree) := by
  refine (branching_of_throughout ?_ ?_).members .file
  · intro head children c hordered hkind
    rw [Head.kind_withDoc] at hkind
    obtain ⟨t, ht, hbecomes, hiff⟩ := hordered hkind
    exact ⟨t, ht, hbecomes.withDoc c, hiff⟩
  · apply ParseTree.Throughout.of_forall_mem
    intro t ht owner head children hmem hkind
    have hordered := inOrder_iff_of_mem_member (h.of_mem_preorder ht)
      (hfirst.of_mem_preorder ht).here hmem hkind
    exact ⟨t, ht, ⟨owner, head, hmem, .inl rfl⟩, hordered⟩

theorem problem?_of_mem_outline {tree : ParseTree} {node : Node}
    (h : node ∈ outline source tree) : node.problem? = none := by
  have hregular := outline_regular (tree.placed_of_forall (fun _ => trivial) source :
    tree.Placed (fun _ => True) source)
  have hlabel := hregular.of_mem h
  cases node with
  | branch head children => rfl
  | leaf item =>
      cases item with
      | problem item => exact hlabel.elim
      | _ => rfl

/-- Apart from the problems a file owns what the parse tree declares. -/
theorem filter_children_outline (path : String) (bytes : List UInt8) (tree : ParseTree) :
    (Grammar.java.outline path bytes tree).children.filter (·.problem?.isNone) =
      outline (Text.decodeLossy bytes) tree := by
  have hproblems : ((sourceProblems bytes tree).map fun problem =>
      Node.leaf (.problem problem)).filter (·.problem?.isNone) = [] := by
    simp [Node.problem?]
  have hnodes : (outline (Text.decodeLossy bytes) tree).filter (·.problem?.isNone) =
      outline (Text.decodeLossy bytes) tree := by
    rw [List.filter_eq_self]
    intro node hnode
    rw [problem?_of_mem_outline hnode]
    rfl
  rw [Grammar.outline, List.filter_append, hproblems, List.append_nil]
  exact hnodes

/-- The members of a Java source are in order wherever no doc comment is overtaken: at the top of
the file, in the body of any type, and with the components of a record in front. Problems, which are
reported behind everything else, are left aside. -/
theorem outline_inOrder_iff (path : String) (bytes : List UInt8) {tree : ParseTree}
    (h : tree.WellSpanned) (hfirst : tree.Throughout ComponentsFirst) :
    (∀ t ∈ tree.preorder, ∀ owner,
      InOrder (members (Text.decodeLossy bytes) owner t) ↔
        ¬ Overtaken (Text.decodeLossy bytes) t) ∧
    (InOrder ((Grammar.java.outline path bytes tree).children.filter (·.problem?.isNone)) ↔
      ¬ Overtaken (Text.decodeLossy bytes) tree) ∧
    ∀ head children,
      .branch head children ∈ (Grammar.java.outline path bytes tree).walk →
      head.kind = .type .classType ∨ head.kind = .type .interfaceType →
      ∃ t ∈ tree.preorder, Becomes (Text.decodeLossy bytes) t head children ∧
        (InOrder children ↔
          ∀ block ∈ t.child? "body", ¬ Overtaken (Text.decodeLossy bytes) block) := by
  refine ⟨?_, ?_, ?_⟩
  · intro t ht owner
    exact members_inOrder_iff (h.of_mem_preorder ht) owner
  · rw [filter_children_outline]
    exact members_inOrder_iff h .file
  · exact Node.EveryBranch.outline (g := .java) path bytes (outline_ordered h hfirst)

/-! ## Specimens -/

theorem recordTree_wellSpanned : recordTree.WellSpanned :=
  .of_forall_mem (by decide)

theorem recordTree_componentsFirst : recordTree.Throughout ComponentsFirst :=
  .of_forall_mem (by decide)

/-- The remark stands in front of the doc comments of the body. -/
theorem recordBody_not_overtaken : ¬ Overtaken (Text.decodeLossy recordBytes) recordBody := by
  have hhead : ∀ t ∈ recordBody.parts.head?,
      (comment (Text.decodeLossy recordBytes) t).format ≠ .doc := by
    decide +kernel
  have htail : ∀ t ∈ recordBody.parts.tail,
      (comment (Text.decodeLossy recordBytes) t).format = .doc := by
    decide +kernel
  rintro ⟨before, doc, remark, after, hparts, hdoc, hremark, -⟩
  rw [hparts] at hhead htail
  cases before with
  | nil => exact hhead doc rfl hdoc.2
  | cons first before => exact hremark.2 (htail remark (by simp))

/-- Neither the file of the record nor its body has an overtaken doc comment. -/
theorem outline_inOrder_iff_record :
    recordTree.WellSpanned ∧ recordTree.Throughout ComponentsFirst ∧
    InOrder ((Grammar.java.outline "P.java" recordBytes recordTree).children.filter
      (·.problem?.isNone)) ∧
    InOrder (members (Text.decodeLossy recordBytes) .classType recordBody) := by
  obtain ⟨hmembers, hfile, -⟩ := outline_inOrder_iff "P.java" recordBytes recordTree_wellSpanned
    recordTree_componentsFirst
  have hbody : recordBody ∈ recordTree.preorder := by
    simp [recordTree, ParseTree.preorder, ParseTree.preorderAll, ParseTree.mem_preorder_self]
  refine ⟨recordTree_wellSpanned, recordTree_componentsFirst, hfile.mpr ?_,
    (hmembers recordBody hbody .classType).mpr recordBody_not_overtaken⟩
  rintro ⟨before, doc, remark, after, hparts, -⟩
  have hlength := congrArg List.length hparts
  simp [recordTree, ParseTree.parts] at hlength
  omega

/-- The parse tree of a file with a doc comment, a remark and an import. -/
def licenseTree : ParseTree :=
  ⟨"program", "", true, false, false, 0, 52,
    [⟨"block_comment", "", true, false, false, 0, 15, []⟩,
     ⟨"line_comment", "", true, false, false, 16, 28, []⟩,
     ⟨"import_declaration", "", true, false, false, 29, 51,
      [⟨"import", "", false, false, false, 29, 35, []⟩,
       ⟨"scoped_identifier", "", true, false, false, 36, 50,
        [⟨"scoped_identifier", "scope", true, false, false, 36, 45,
          [⟨"identifier", "scope", true, false, false, 36, 40, []⟩,
           ⟨".", "", false, false, false, 40, 41, []⟩,
           ⟨"identifier", "name", true, false, false, 41, 45, []⟩]⟩,
         ⟨".", "", false, false, false, 45, 46, []⟩,
         ⟨"identifier", "name", true, false, false, 46, 50, []⟩]⟩,
       ⟨";", "", false, false, false, 50, 51, []⟩]⟩]⟩

/-- The bytes of a file with a doc comment, a remark and an import. -/
def licenseBytes : List UInt8 :=
  Text.encode "/** License. */\n// generated\nimport java.util.List;\n".toList

theorem licenseTree_wellSpanned : licenseTree.WellSpanned :=
  .of_forall_mem (by decide)

theorem licenseTree_overtaken : Overtaken (Text.decodeLossy licenseBytes) licenseTree := by
  refine ⟨[], _, _, _, rfl, ⟨by decide, ?_⟩, ⟨by decide, ?_⟩, ?_⟩
  · decide +kernel
  · decide +kernel
  · decide

/-- The doc comment in front of a remark and an import is put down behind the remark. -/
theorem members_not_inOrder_license :
    licenseTree.WellSpanned ∧
      ¬ InOrder (members (Text.decodeLossy licenseBytes) .file licenseTree) :=
  ⟨licenseTree_wellSpanned, fun h =>
    (members_inOrder_iff licenseTree_wellSpanned .file).mp h licenseTree_overtaken⟩

end Java

end Precis
