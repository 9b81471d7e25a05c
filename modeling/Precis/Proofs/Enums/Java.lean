import Precis.Frontend.Java
import Precis.Proofs.Enums.Tally
import Precis.Proofs.Outlining.Spans

/-! # Enums in Java outlines -/

namespace Precis.Java

/-- What enums and their constants are called. -/
def enumWords : EnumWords where
  declaration := "enum_declaration"
  member := "enum_constant"

variable {w : EnumWords} {source : List Char} {ds : List ParseTree}

/-! ## Comments and leaves -/

theorem commentPiece_tallies (t : ParseTree) :
    Tallies w source (commentPiece source t).nodes [] ds := by
  unfold commentPiece
  dsimp only
  split
  · exact .nil
  · exact .leaf rfl

theorem fieldNodes_tallies (owner : Owner) (t : ParseTree) :
    Tallies w source (fieldNodes source owner t) [] ds := by
  apply Tallies.leaves
  intro node hnode
  obtain ⟨declarator, -, hnode⟩ := List.mem_filterMap.mp hnode
  obtain ⟨name, -, rfl⟩ := Option.map_eq_some_iff.mp hnode
  exact ⟨_, rfl, rfl⟩

theorem componentFields_tallies (t : ParseTree) :
    Tallies w source (componentFields source t) [] ds := by
  unfold componentFields
  split
  · apply Tallies.leaves
    intro node hnode
    obtain ⟨part, -, hnode⟩ := List.mem_filterMap.mp hnode
    unfold componentField? at hnode
    split_ifs at hnode
    obtain ⟨name, -, rfl⟩ := Option.map_eq_some_iff.mp hnode
    exact ⟨_, rfl, rfl⟩
  · exact .nil

theorem leafMember_tallies (owner : Owner) (t : ParseTree) :
    Tallies w source (leafMember source owner t) [] ds := by
  unfold leafMember
  apply Tallies.ite
  · exact Tallies.nil.branch (by simp [Head.kind])
  apply Tallies.ite
  · exact .leaf rfl
  apply Tallies.ite
  · exact .toList_map fun _ => .leaf rfl
  apply Tallies.ite
  · exact .toList_map fun _ => .leaf rfl
  apply Tallies.ite
  · exact fieldNodes_tallies owner t
  · exact .nil

/-! ## Types -/

/-- What the heads of classes, interfaces and records add to the common part does not matter. -/
theorem declared_tallies {owner : Owner} {kind : TypeKind} {t : ParseTree}
    {f : TypeHead → TypeHead} {inside : TypeHead → List Node} (hkind : kind ≠ .enumType)
    (hf : ∀ head, (f head).kind = head.kind)
    (hinside : ∀ head, Tallies w source (inside head) [] ds) :
    Tallies w source (((typeHead? source owner kind t).map f).toList.map fun head =>
      .branch (.type head) (inside head)) [] ds := by
  unfold typeHead?
  cases t.textOf? "name" source with
  | none => exact .nil
  | some name => exact (hinside _).branch (by simpa [Head.kind, hf] using hkind)

theorem body_tallies {owner : Owner} {t : ParseTree}
    (h : ∀ block, t.child? "body" = some block →
      Tallies w source (members source owner block) [] (w.declarations block)) :
    Tallies w source (body source owner t) [] (w.declarations t) := by
  rw [body_eq]
  cases hbody : t.child? "body" with
  | none => exact .nil
  | some block =>
      exact (h block hbody).mono (EnumWords.declarations_sublist (ParseTree.mem_of_child? hbody))

/-- An enum has the members that its body gives. -/
theorem enum_tallies {owner : Owner} {t : ParseTree} (hkind : t.kind = enumWords.declaration)
    (h : ∀ block enumName, t.child? "body" = some block →
      Tallies enumWords source (arrange (block.parts.map (enumPiece source enumName)))
        (block.parts.filter enumWords.spellsMember) (enumWords.declarations block)) :
    Tallies enumWords source (member source owner t) [] (enumWords.declarations t) := by
  rw [member_of_enum source owner t hkind, enumHead?, typeHead?,
    EnumWords.declarations_of_kind hkind]
  cases hname : t.textOf? "name" source with
  | none => exact .nil
  | some name =>
      simp only [Option.map_some, Option.toList_some, List.map_cons, List.map_nil]
      apply Tallies.enum
      · rfl
      · rw [hname, Option.map_some]
      · rfl
      · unfold EnumWords.membersOf
        cases hbody : t.child? "body" with
        | none => exact .nil
        | some block =>
            exact (h block _ hbody).mono
              (EnumWords.declarations_sublist_flatMap (ParseTree.mem_of_child? hbody))

/-- What a node contributes, whether it stands as a member, as a body, in the body of an enum or as
the body of an enum: only constants in the body of an enum are members. -/
structure Tallied (source : List Char) (t : ParseTree) : Prop where
  member : ∀ owner, Tallies enumWords source (member source owner t) [] (enumWords.declarations t)
  members : ∀ owner,
    Tallies enumWords source (members source owner t) [] (enumWords.declarations t)
  enumPiece : ∀ enumName, Tallies enumWords source (enumPiece source enumName t).nodes
    ([t].filter enumWords.spellsMember) (enumWords.declarations t)
  enumBody : ∀ enumName, Tallies enumWords source
    (arrange (t.parts.map (Java.enumPiece source enumName)))
    (t.parts.filter enumWords.spellsMember) (enumWords.declarations t)

theorem member_tallies {t : ParseTree} (ih : ∀ c ∈ t.children, Tallied source c) (owner : Owner) :
    Tallies enumWords source (member source owner t) [] (enumWords.declarations t) := by
  have hbody : ∀ owner,
      Tallies enumWords source (body source owner t) [] (enumWords.declarations t) := by
    intro owner
    apply body_tallies
    intro block hblock
    exact (ih block (ParseTree.mem_of_child? hblock)).members owner
  by_cases henum : t.kind = "enum_declaration"
  · apply enum_tallies henum
    intro block enumName hblock
    exact (ih block (ParseTree.mem_of_child? hblock)).enumBody enumName
  · rw [member, if_neg henum]
    apply Tallies.ite
    · exact declared_tallies (by decide) (fun _ => rfl) fun _ => hbody _
    apply Tallies.ite
    · exact declared_tallies (by decide) (fun _ => rfl) fun _ => hbody _
    apply Tallies.ite
    · have hfields : Tallies enumWords source (componentFields source t) [] [] :=
        componentFields_tallies t
      exact declared_tallies (by decide) (fun _ => rfl) fun _ => hfields.append (hbody _)
    · exact leafMember_tallies owner t

theorem tallied (t : ParseTree) : Tallied source t := by
  induction hsize : t.size using Nat.strongRecOn generalizing t with
  | ind n ih =>
      have below : ∀ c ∈ t.children, Tallied source c := by
        intro c hc
        exact ih c.size (hsize ▸ ParseTree.size_lt_of_mem hc) c rfl
      have hmember := member_tallies below
      have hmembers : ∀ owner,
          Tallies enumWords source (members source owner t) [] (enumWords.declarations t) := by
        intro owner
        rw [members_eq]
        refine tallies_arrange_siblings id (by simpa using t.parts_sublist) ?_
        intro part hpart
        split_ifs
        · exact commentPiece_tallies part
        · exact (below part (ParseTree.mem_of_mem_parts hpart)).member owner
      refine ⟨hmember, hmembers, ?_, ?_⟩
      · intro enumName
        rw [enumPiece]
        by_cases hkind : t.kind = "enum_constant"
        · rw [if_pos hkind]
          exact .ofEnum hkind enumName
        · have hother : [t].filter enumWords.spellsMember = [] := by
            simp [EnumWords.spellsMember, enumWords, hkind]
          rw [if_neg hkind, hother]
          split_ifs
          · exact commentPiece_tallies t
          · exact hmembers .enumType
          · exact hmember .enumType
      · intro enumName
        apply tallies_arrange_members t.parts_sublist
        intro part hpart
        exact (below part (ParseTree.mem_of_mem_parts hpart)).enumPiece enumName

end Precis.Java
