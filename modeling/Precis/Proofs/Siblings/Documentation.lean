import Precis.Frontend.Java
import Precis.Proofs.Siblings.Rust

/-! # Doc comments and attributes go to what they precede

Java members are laid out like the bodies of Rust sources, without attributes. In both, an element
takes the doc comments and attributes since the element before it and no others. -/

namespace Precis

namespace Java

/-- How the children of a body are told apart. Annotations are parts of what they annotate. -/
def dialect (source : List Char) : Dialect where
  isComment := isComment
  comment := comment source
  documents c := c.format = .doc
  isAttribute _ := false
  decorator _ := ""
  decorated := []
  format_of_documents := fun c h => by simpa using h
  isComment_of_isAttribute := nofun
  comment_not_decorated := nofun

variable {source : List Char} {owner : Owner} {t : ParseTree} {attributes : List String}

theorem piece?_eq (nodes : List Node) (t : ParseTree) :
    (dialect source).piece? nodes t =
      some (if isComment t then commentPiece source t else .element nodes) := by
  by_cases hcomment : isComment t = true
  · by_cases hdoc : (comment source t).format = .doc
    · simp [Dialect.piece?, dialect, commentPiece, hcomment, hdoc]
    · simp [Dialect.piece?, dialect, commentPiece, hcomment, hdoc]
  · simp [Dialect.piece?, dialect, hcomment]

theorem members_eq_arrange (owner : Owner) (t : ParseTree) :
    members source owner t =
      arrange ((dialect source).pieces (fun _ part => member source owner part) [] t.parts) := by
  rw [members_eq, Dialect.pieces_eq_filterMap]
  simp only [piece?_eq, List.filterMap_eq_map']

/-! ## Nodes as elements become them -/

/-- A node without a doc comment is fresh, since no kind is decorated. -/
theorem fresh_of_doc? {node : Node} (hdoc : node.doc? = none) (hkind : node.kind ≠ .comment) :
    (dialect source).Fresh attributes node :=
  ⟨hdoc, hkind, nofun⟩

theorem leafMember_fresh :
    ∀ node ∈ leafMember source owner t, (dialect source).Fresh attributes node := by
  unfold leafMember
  apply forall_mem_ite
  · exact List.forall_mem_singleton.mpr (fresh_of_doc? rfl nofun)
  apply forall_mem_ite
  · exact List.forall_mem_singleton.mpr (fresh_of_doc? rfl nofun)
  apply forall_mem_ite
  · exact forall_mem_toList_map fun _ _ => fresh_of_doc? rfl nofun
  apply forall_mem_ite
  · exact forall_mem_toList_map fun _ _ => fresh_of_doc? rfl nofun
  apply forall_mem_ite
  · intro node hnode
    obtain ⟨declarator, -, hnode⟩ := List.mem_filterMap.mp hnode
    obtain ⟨name, -, rfl⟩ := Option.map_eq_some_iff.mp hnode
    exact fresh_of_doc? rfl nofun
  · exact List.forall_mem_nil _

/-- What the heads of classes, interfaces, enums and records add to the common part is no doc
comment. -/
theorem declared_fresh {kind : TypeKind} {f : TypeHead → TypeHead} {inside : TypeHead → List Node}
    (hf : ∀ head, (f head).doc = head.doc) :
    ∀ node ∈ ((typeHead? source owner kind t).map f).toList.map fun head =>
      Node.branch (.type head) (inside head), (dialect source).Fresh attributes node := by
  intro node hnode
  obtain ⟨head, hhead, rfl⟩ := List.mem_map.mp hnode
  rw [Option.mem_toList] at hhead
  obtain ⟨common, hcommon, rfl⟩ := Option.map_eq_some_iff.mp hhead
  obtain ⟨name, -, rfl⟩ := Option.map_eq_some_iff.mp hcommon
  exact fresh_of_doc? (hf _) nofun

theorem member_fresh : ∀ node ∈ member source owner t, (dialect source).Fresh attributes node := by
  rw [member]
  apply forall_mem_ite
  · exact declared_fresh fun _ => rfl
  apply forall_mem_ite
  · exact declared_fresh fun _ => rfl
  apply forall_mem_ite
  · exact declared_fresh fun _ => rfl
  apply forall_mem_ite
  · exact declared_fresh fun _ => rfl
  · exact leafMember_fresh

theorem laidOut_members (owner : Owner) (t : ParseTree) :
    (dialect source).LaidOut (fun _ part => member source owner part) [] t.parts
      (members source owner t) := by
  rw [members_eq_arrange]
  exact Dialect.laidOut_arrange (fun _ _ => member_fresh) t.parts

end Java

/-- Bodies are laid out child by child: the members of Java declarations, and the items, `impl`
members and trait members of Rust sources. -/
theorem bodies_laidOut (source : List Char) :
    (∀ owner t, (Java.dialect source).LaidOut (fun _ part => Java.member source owner part) []
      t.parts (Java.members source owner t)) ∧
    (∀ container, (Rust.dialect source).LaidOut (Rust.itemShare source container.parts) []
      container.parts (Rust.items source container)) ∧
    (∀ ofTrait body, (Rust.dialect source).LaidOut
      (fun before t =>
        Rust.implMember source ofTrait ⟨(Rust.dialect source).attributesBefore before, t⟩) []
      body.parts (Rust.implBody source ofTrait body)) ∧
    ∀ body, (Rust.dialect source).LaidOut
      (fun before t => Rust.traitMember source ⟨(Rust.dialect source).attributesBefore before, t⟩)
      [] body.parts (Rust.traitBody source body) :=
  ⟨Java.laidOut_members, Rust.laidOut_items, Rust.laidOut_implBody, Rust.laidOut_traitBody⟩

end Precis
