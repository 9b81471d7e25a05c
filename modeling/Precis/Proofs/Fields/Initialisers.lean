import Precis.Proofs.Outlining.Python

/-! # Fields that an initialiser adds to a class

The statements of an initialiser are read in order with a list of the names that are taken, which
grows with each new field. What comes out does not need that list to be said: the fields are those
that some statement assigns and the class body does not have, each as its first assignment gives it
and in the order of the first assignments. -/

namespace Precis.Python

open Text

variable {source : List Char} {s t assignment : ParseTree} {name : List Char}

/-! ## Assignments to attributes -/

theorem assignment?_eq_some_iff :
    assignment? t = some assignment ↔
      t.parts.head? = some assignment ∧ assignment.kind = "assignment" := by
  unfold assignment?
  cases t.parts with
  | nil => simp
  | cons first rest =>
      simp only [List.head?_cons, Option.ite_none_right_eq_some, Option.some.injEq]
      constructor
      · rintro ⟨hkind, rfl⟩
        exact ⟨rfl, hkind⟩
      · rintro ⟨rfl, hkind⟩
        exact ⟨hkind, rfl⟩

/-- A statement starts with an assignment whose left side is spelled `self.` and a name without
dots. -/
structure AssignsAs (source : List Char) (t assignment : ParseTree) (name : List Char) : Prop where
  statement : t.kind = "expression_statement"
  first : t.parts.head? = some assignment
  kind : assignment.kind = "assignment"
  target : assignment.textOf? "left" source = some ("self.".toList ++ name)
  undotted : '.' ∉ name

/-- A statement assigns to the attribute of `self` with a name. -/
def Assigns (source : List Char) (t : ParseTree) (name : String) : Prop :=
  ∃ assignment, AssignsAs source t assignment name.toList

theorem AssignsAs.unique {assignment' : ParseTree} {name' : List Char}
    (h : AssignsAs source t assignment name) (h' : AssignsAs source t assignment' name') :
    assignment = assignment' ∧ name = name' := by
  obtain rfl : assignment = assignment' := Option.some.inj (h.first.symm.trans h'.first)
  have htarget := Option.some.inj (h.target.symm.trans h'.target)
  exact ⟨rfl, List.append_cancel_left htarget⟩

theorem Assigns.unique {a b : String} (ha : Assigns source t a) (hb : Assigns source t b) :
    a = b := by
  obtain ⟨_, ha⟩ := ha
  obtain ⟨_, hb⟩ := hb
  exact String.toList_inj.mp (ha.unique hb).2

theorem AssignsAs.assigns (h : AssignsAs source t assignment name) :
    Assigns source t (String.ofList name) :=
  ⟨assignment, by simpa using h⟩

/-- A field has the type, the value and the place of an assignment in a statement. -/
structure Carries (source : List Char) (t assignment : ParseTree) (field : Field) : Prop where
  type : field.type = (assignment.textOf? "type" source).map annotation
  value : field.value = (assignment.textOf? "right" source).map String.ofList
  location : field.location = t.location source

theorem carries_assignedField (source : List Char) (t assignment : ParseTree) (name : List Char) :
    Carries source t assignment (assignedField source t assignment name) :=
  ⟨rfl, rfl, rfl⟩

theorem selfField?_eq_some_iff {field : Field} :
    selfField? source t = some field ↔
      ∃ assignment name, AssignsAs source t assignment name ∧
        field = assignedField source t assignment name := by
  simp only [selfField?, Option.bind_eq_bind, Option.bind_none, Option.ite_none_right_eq_some,
    Option.bind_eq_some_iff, assignment?_eq_some_iff, dropPrefix?_eq_some_iff,
    Option.ite_none_left_eq_some, Option.some.injEq]
  constructor
  · rintro ⟨hstatement, assignment, ⟨hfirst, hkind⟩, left, hleft, name, htext, hdot, rfl⟩
    refine ⟨assignment, name, ⟨hstatement, hfirst, hkind, ?_, by simpa using hdot⟩, rfl⟩
    rw [ParseTree.textOf?, hleft, Option.map_some, htext]
  · rintro ⟨assignment, name, h, rfl⟩
    obtain ⟨left, hleft, htext⟩ := Option.map_eq_some_iff.mp h.target
    exact ⟨h.statement, assignment, ⟨h.first, h.kind⟩, left, hleft, name, htext,
      by simpa using h.undotted, rfl⟩

/-! ## Reading the statements -/

/-- Some fields are what a row of statements adds where some names are taken. -/
structure Gathered (source : List Char) (statements : List ParseTree) (taken : List String)
    (fields : List Field) : Prop where
  distinct : (fields.map Field.name).Nodup
  /-- The names are those that are assigned and not taken. -/
  complete : ∀ name, name ∈ fields.map Field.name ↔
    name ∉ taken ∧ ∃ t ∈ statements, Assigns source t name
  /-- A field is what the first statement that assigns its name says. -/
  first : ∀ field ∈ fields, ∃ before t after assignment, statements = before ++ t :: after ∧
    (∀ u ∈ before, ¬ Assigns source u field.name) ∧
    AssignsAs source t assignment field.name.toList ∧ Carries source t assignment field
  /-- Of two fields, the former is assigned at a place before which the latter is not. -/
  ordered : fields.Pairwise fun f g => ∃ before t after, statements = before ++ t :: after ∧
    Assigns source t f.name ∧ ∀ u ∈ before ++ [t], ¬ Assigns source u g.name

namespace Gathered

variable {rest : List ParseTree} {taken : List String} {fields : List Field}

theorem nil : Gathered source [] taken [] where
  distinct := List.nodup_nil
  complete := by simp
  first := List.forall_mem_nil _
  ordered := List.Pairwise.nil

/-- A place in the remaining statements is a place in all of them, where the statement before
assigns nothing that is asked for. -/
theorem shift {before after : List ParseTree} {a : String} (hrest : rest = before ++ t :: after)
    (hbefore : ∀ u ∈ before, ¬ Assigns source u a) (hs : ¬ Assigns source s a) :
    s :: rest = (s :: before) ++ t :: after ∧ ∀ u ∈ s :: before, ¬ Assigns source u a :=
  ⟨by rw [hrest, List.cons_append], List.forall_mem_cons.mpr ⟨hs, hbefore⟩⟩

/-- A statement that assigns nothing new is passed over. -/
theorem skip (h : Gathered source rest taken fields)
    (hs : ∀ a, Assigns source s a → a ∈ taken) : Gathered source (s :: rest) taken fields where
  distinct := h.distinct
  complete a := by
    rw [h.complete, List.exists_mem_cons_iff]
    refine and_congr_right fun hfree => ?_
    have hnot : ¬ Assigns source s a := fun hassigns => hfree (hs a hassigns)
    exact (or_iff_right hnot).symm
  first field hfield := by
    obtain ⟨before, t, after, assignment, hrest, hbefore, hassigns, hsays⟩ := h.first field hfield
    have hfree := ((h.complete field.name).mp (List.mem_map_of_mem hfield)).1
    obtain ⟨hplace, hunassigned⟩ := shift hrest hbefore fun hname => hfree (hs _ hname)
    exact ⟨_, t, after, assignment, hplace, hunassigned, hassigns, hsays⟩
  ordered := by
    apply h.ordered.imp_of_mem
    intro f g _ hg hplaces
    obtain ⟨before, t, after, hrest, hf, hbefore⟩ := hplaces
    have hfree := ((h.complete g.name).mp (List.mem_map_of_mem hg)).1
    obtain ⟨hplace, -⟩ := shift (a := g.name) hrest
      (fun u hu => hbefore u (List.mem_append_left _ hu)) fun hname => hfree (hs _ hname)
    refine ⟨_, t, after, hplace, hf, ?_⟩
    exact List.forall_mem_cons.mpr ⟨fun hname => hfree (hs _ hname), hbefore⟩

/-- A statement that assigns a new name adds a field, and takes the name. -/
theorem take (h : Gathered source rest (taken ++ [String.ofList name]) fields)
    (hs : AssignsAs source s assignment name) (hfree : String.ofList name ∉ taken) :
    Gathered source (s :: rest) taken (assignedField source s assignment name :: fields) := by
  have hnew : ∀ field ∈ fields, ¬ Assigns source s field.name := by
    intro field hfield hname
    have hnot := ((h.complete field.name).mp (List.mem_map_of_mem hfield)).1
    rw [hname.unique hs.assigns] at hnot
    exact hnot (by simp)
  constructor
  · rw [List.map_cons, List.nodup_cons]
    refine ⟨fun hmem => ?_, h.distinct⟩
    exact ((h.complete _).mp hmem).1 (List.mem_append_right _ (List.mem_singleton.mpr rfl))
  · intro a
    rw [List.map_cons, List.mem_cons, h.complete, List.exists_mem_cons_iff, List.mem_append,
      List.mem_singleton, not_or]
    constructor
    · rintro (rfl | ⟨⟨ha, -⟩, hassigns⟩)
      · exact ⟨hfree, .inl hs.assigns⟩
      · exact ⟨ha, .inr hassigns⟩
    · rintro ⟨ha, hassigns | hassigns⟩
      · exact .inl (hassigns.unique hs.assigns)
      · by_cases hname : a = String.ofList name
        · exact .inl hname
        · exact .inr ⟨⟨ha, hname⟩, hassigns⟩
  · refine List.forall_mem_cons.mpr ⟨?_, ?_⟩
    · exact ⟨[], s, rest, assignment, rfl, List.forall_mem_nil _,
        by simpa [assignedField] using hs, carries_assignedField _ _ _ _⟩
    · intro field hfield
      obtain ⟨before, t, after, assignment, hrest, hbefore, hsays⟩ := h.first field hfield
      obtain ⟨hplace, hunassigned⟩ := shift hrest hbefore (hnew field hfield)
      exact ⟨_, t, after, assignment, hplace, hunassigned, hsays⟩
  · refine List.pairwise_cons.mpr ⟨?_, ?_⟩
    · intro field hfield
      refine ⟨[], s, rest, rfl, hs.assigns, ?_⟩
      simpa using hnew field hfield
    · apply h.ordered.imp_of_mem
      intro f g _ hg hplaces
      obtain ⟨before, t, after, hrest, hf, hbefore⟩ := hplaces
      refine ⟨s :: before, t, after, by rw [hrest, List.cons_append], hf, ?_⟩
      exact List.forall_mem_cons.mpr ⟨hnew g hg, hbefore⟩

end Gathered

/-- Reading statements gathers the fields that they add. -/
theorem gathered_newFields (taken : List String) (statements : List ParseTree) :
    Gathered source statements taken
      (newFields taken (statements.filterMap (selfField? source))) := by
  induction statements generalizing taken with
  | nil => exact .nil
  | cons s rest ih =>
      cases hfield : selfField? source s with
      | none =>
          rw [List.filterMap_cons_none hfield]
          refine (ih taken).skip ?_
          rintro a ⟨assignment, hassigns⟩
          have hsome := selfField?_eq_some_iff.mpr ⟨assignment, _, hassigns, rfl⟩
          rw [hfield] at hsome
          cases hsome
      | some field =>
          rw [List.filterMap_cons_some hfield]
          obtain ⟨assignment, name, hassigns, rfl⟩ := selfField?_eq_some_iff.mp hfield
          rw [newFields]
          split
          · rename_i htaken
            refine (ih taken).skip ?_
            intro a ha
            rw [ha.unique hassigns.assigns]
            exact List.contains_iff_mem.mp htaken
          · rename_i hfree
            exact (ih _).take hassigns fun hmem => hfree (List.contains_iff_mem.mpr hmem)

/-! ## Classes -/

/-- The statements at the top level of the body of a class or function. -/
def bodyParts (t : ParseTree) : List ParseTree :=
  ((t.child? "body").map ParseTree.parts).getD []

/-- Some statements are those of the first initialiser among some definitions; there are none
without an initialiser. -/
inductive Initialises (source : List Char) (definitions : List ParseTree) :
    List ParseTree → Prop where
  | absent (h : ∀ d ∈ definitions, isInitialiser source d = false) :
      Initialises source definitions []
  | first {before after : List ParseTree} {initialiser : ParseTree}
      (hdefinitions : definitions = before ++ initialiser :: after)
      (hbefore : ∀ d ∈ before, isInitialiser source d = false)
      (hinitialiser : isInitialiser source initialiser = true) :
      Initialises source definitions (bodyParts initialiser)

/-- The definitions in the body of a class, and other statements, without decorators. -/
def definitions (t : ParseTree) : List ParseTree :=
  (bodyParts t).filterMap undecorated

/-- The members that the statements in the body of a class declare. -/
def bodyMembers (source : List Char) (t : ParseTree) : List Node :=
  (bodyParts t).flatMap (statement source .classBody)

/-- The statements of the first initialiser in the body of a class. -/
def initialStatements (source : List Char) (t : ParseTree) : List ParseTree :=
  (((definitions t).find? (isInitialiser source)).map bodyParts).getD []

theorem initialises_initialStatements (source : List Char) (t : ParseTree) :
    Initialises source (definitions t) (initialStatements source t) := by
  unfold initialStatements
  cases hfound : (definitions t).find? (isInitialiser source) with
  | none => exact .absent fun d hd => by simpa using List.find?_eq_none.mp hfound d hd
  | some initialiser =>
      obtain ⟨hinitialiser, before, after, hdefinitions, hbefore⟩ :=
        List.find?_eq_some_iff_append.mp hfound
      exact .first hdefinitions (fun d hd => by simpa using hbefore d hd) hinitialiser

theorem instanceFields_eq {body : ParseTree} (hbody : t.child? "body" = some body)
    (members : List Node) :
    instanceFields source body members =
      (newFields (members.filterMap fieldName?)
        ((initialStatements source t).filterMap (selfField? source))).map
          fun field => .leaf (.field field) := by
  have hparts : bodyParts t = body.parts := by
    rw [bodyParts, hbody]
    rfl
  have hinitialiser : initialiser? source body =
      (body.parts.filterMap undecorated).find? (isInitialiser source) := rfl
  rw [instanceFields, hinitialiser, initialStatements, definitions, hparts]
  cases (body.parts.filterMap undecorated).find? (isInitialiser source) with
  | none => rfl
  | some initialiser =>
      rw [Option.map_some, Option.bind_some, Option.getD_some, bodyParts]
      cases initialiser.child? "body" <;> rfl

/-- A class has the members of its body, and then the fields that are new in its initialiser. -/
theorem class?_eq_append (source : List Char) (decorators : List (List Char)) (t : ParseTree) :
    class? source decorators t = (classHead? source decorators t).map fun head =>
      .branch (.type head) (bodyMembers source t ++
        (newFields ((bodyMembers source t).filterMap fieldName?)
          ((initialStatements source t).filterMap (selfField? source))).map
            fun field => .leaf (.field field)) := by
  rw [class?_eq]
  congr 1
  funext head
  congr 1
  cases hbody : t.child? "body" with
  | none => simp [bodyMembers, initialStatements, definitions, bodyParts, hbody, newFields]
  | some body =>
      have hmembers : bodyMembers source t = body.parts.flatMap (statement source .classBody) := by
        rw [bodyMembers, bodyParts, hbody]
        rfl
      rw [Option.map_some, Option.getD_some, flatMap_blockStatements, ← hmembers]
      exact congrArg (bodyMembers source t ++ ·) (instanceFields_eq hbody _)

/-- Behind the members that the body of a class declares stand the fields that its first
initialiser adds: the names that the initialiser assigns at its top level and that no field of the
body has, each once, as its first assignment declares it and in the order of these. -/
theorem class?_gathers (source : List Char) (decorators : List (List Char)) (t : ParseTree) :
    ∃ statements fields,
      Initialises source (definitions t) statements ∧
      Gathered source statements ((bodyMembers source t).filterMap fieldName?) fields ∧
      class? source decorators t = (classHead? source decorators t).map fun head =>
        .branch (.type head)
          (bodyMembers source t ++ fields.map fun field => .leaf (.field field)) :=
  ⟨initialStatements source t, _, initialises_initialStatements source t,
    gathered_newFields _ _, class?_eq_append source decorators t⟩

end Precis.Python
