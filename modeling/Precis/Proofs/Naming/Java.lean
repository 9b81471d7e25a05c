import Precis.Proofs.Outlining.Java
import Precis.Proofs.Text.Cutting
import Precis.Proofs.Types.Brackets

/-! # Names of Java packages and imports

Package and import declarations are read from their texts: the keyword is cut off in front, the
semicolon behind, and an import loses its white space. Here the declarations are written down with
the white space of a spelling. An import is read rightly however it is spelled, but the name of a
package keeps the white space inside it, and everything if an annotation stands before the
keyword. -/

namespace Precis.Java

open Text

/-! ## Declarations with their spellings -/

/-- White space, which may be empty. -/
abbrev Gap :=
  { cs : List Char // allBlank cs = true }

/-- White space that keeps two words apart. -/
abbrev Space :=
  { cs : List Char // allBlank cs = true ∧ cs ≠ [] }

/-- A part of a dotted name: a text without white space, dots and semicolons other than the keyword
`static`. -/
structure Identifier where
  text : List Char
  nonempty : text ≠ []
  chars : ∀ c ∈ text, isBlank c = false ∧ c ≠ '.' ∧ c ≠ ';'
  notStatic : text ≠ "static".toList

/-- A single character as an identifier. -/
def Identifier.ofChar (c : Char) (h : isBlank c = false ∧ c ≠ '.' ∧ c ≠ ';') : Identifier where
  text := [c]
  nonempty := List.cons_ne_nil _ _
  chars := List.forall_mem_singleton.mpr h
  notStatic := by simp

/-- The star that stands for all names. -/
def Identifier.star : Identifier :=
  .ofChar '*' (by decide)

/-- A dotted name with the white space around its dots. -/
inductive Dotted where
  | single (name : Identifier)
  | dot (path : Dotted) (before after : Gap) (name : Identifier)

namespace Dotted

/-- The spelling. -/
def text : Dotted → List Char
  | single name => name.text
  | dot path before after name => path.text ++ (before.val ++ '.' :: (after.val ++ name.text))

/-- The name without white space. -/
def name : Dotted → List Char
  | single name => name.text
  | dot path _ _ name => path.name ++ '.' :: name.text

/-- No white space stands around the dots. -/
def Compact : Dotted → Prop
  | single _ => True
  | dot path before after _ => path.Compact ∧ before.val = [] ∧ after.val = []

/-- The identifier that a name begins with. -/
def first : Dotted → Identifier
  | single name => name
  | dot path _ _ _ => path.first

end Dotted

/-- An annotation and the white space behind it. -/
structure Annotation where
  rest : List Char
  after : Gap

/-- The spelling. -/
def Annotation.text (a : Annotation) : List Char :=
  '@' :: (a.rest ++ a.after.val)

/-- A package declaration. -/
structure PackageSpelling where
  annotations : List Annotation
  space : Space
  name : Dotted
  close : Gap

/-- An import declaration; `static` is the white space behind this keyword, and `wildcard` that
around the dot before the star. -/
structure ImportSpelling where
  space : Space
  static : Option Space
  name : Dotted
  wildcard : Option (Gap × Gap)
  close : Gap

namespace PackageSpelling

/-- What stands before the name. -/
def opening (d : PackageSpelling) : List Char :=
  d.annotations.flatMap Annotation.text ++ ("package".toList ++ d.space.val)

/-- The spelling. -/
def text (d : PackageSpelling) : List Char :=
  d.opening ++ (d.name.text ++ (d.close.val ++ [';']))

/-- The name that is read: the whole spelling up to the semicolon, without the keyword if the
spelling begins with it. -/
def read (d : PackageSpelling) : List Char :=
  if d.annotations.isEmpty then d.name.text else d.opening ++ d.name.text

end PackageSpelling

namespace ImportSpelling

/-- What is imported, with the star. -/
def path (d : ImportSpelling) : Dotted :=
  match d.wildcard with
  | some gaps => .dot d.name gaps.1 gaps.2 .star
  | none => d.name

/-- The spelling. -/
def text (d : ImportSpelling) : List Char :=
  "import".toList ++ (d.space.val ++
    ((d.static.map fun space => "static".toList ++ space.val).getD [] ++ d.path.text ++
      (d.close.val ++ [';'])))

/-- The kind of import. -/
def kind (d : ImportSpelling) : ImportKind :=
  if d.static.isSome then .static else .plain

/-- The module and the names that are imported from it. -/
def target (d : ImportSpelling) : List Char × List ImportedName :=
  match d.wildcard, d.name with
  | some _, name => (name.name, [.wildcard])
  | none, .single name => (name.text, [])
  | none, .dot path _ _ name => (path.name, [{ name := String.ofList name.text }])

end ImportSpelling

/-! ## Cutting off the keyword and the semicolon -/

theorem space_eq_cons (space : Space) :
    ∃ c rest, space.val = c :: rest ∧ isBlank c = true ∧ allBlank rest = true := by
  obtain ⟨hblank, hne⟩ := space.property
  obtain ⟨c, rest, hspace⟩ := List.exists_cons_of_ne_nil hne
  rw [hspace, allBlank, List.all_cons, Bool.and_eq_true] at hblank
  exact ⟨c, rest, hspace, hblank⟩

/-- A text that neither starts nor ends with white space and does not end with a semicolon. -/
structure Closable (cs : List Char) : Prop where
  first : ∃ c rest, cs = c :: rest ∧ isBlank c = false
  last : ∃ rest c, cs = rest ++ [c] ∧ isBlank c = false ∧ c ≠ ';'

namespace Closable

variable {cs : List Char}

theorem tight (h : Closable cs) : Tight cs := by
  obtain ⟨rest, c, hlast, hc, -⟩ := h.last
  exact ⟨h.first, ⟨rest, c, hlast, hc⟩⟩

theorem append {xs ys : List Char} (hx : Closable xs) (others : List Char) (hy : Closable ys) :
    Closable (xs ++ (others ++ ys)) := by
  obtain ⟨c, rest, rfl, hc⟩ := hx.first
  obtain ⟨front, d, rfl, hd⟩ := hy.last
  exact ⟨⟨c, _, rfl, hc⟩, ⟨c :: rest ++ (others ++ front), d, by simp, hd⟩⟩

/-- A semicolon and the white space before it are cut off. -/
theorem trim_eq (h : Closable cs) {before : List Char} (hbefore : allBlank before = true)
    (close : Gap) :
    trim (dropEndWhile (· == ';') (before ++ (cs ++ (close.val ++ [';'])))) = cs := by
  have hend : dropEndWhile (· == ';') (before ++ (cs ++ close.val)) =
      before ++ (cs ++ close.val) := by
    rcases List.eq_nil_or_concat' close.val with hnil | ⟨front, c, hclose⟩
    · obtain ⟨rest, c, hlast, -, hc⟩ := h.last
      rw [hnil, hlast, List.append_nil, ← List.append_assoc]
      exact List.rdropWhile_concat_neg _ _ _ (by simpa using hc)
    · have hblank : isBlank c = true :=
        List.all_eq_true.mp close.property c (by simp [hclose])
      have hc : c ≠ ';' := by
        rintro rfl
        exact absurd hblank (by decide)
      rw [hclose, ← List.append_assoc, ← List.append_assoc]
      exact List.rdropWhile_concat_neg _ _ _ (by simpa using hc)
  have hsemicolon : dropEndWhile (· == ';') (before ++ (cs ++ (close.val ++ [';']))) =
      dropEndWhile (· == ';') (before ++ (cs ++ close.val)) := by
    rw [← List.append_assoc cs, ← List.append_assoc before]
    exact List.rdropWhile_concat_pos _ _ _ rfl
  rw [hsemicolon, hend, trim_between hbefore close.property, h.tight.trim_eq]

theorem declared_keyword {k : Char} {ks : List Char} (hk : isBlank k = false) (h : Closable cs)
    (space : Space) (close : Gap) :
    declared (k :: ks) (k :: ks ++ (space.val ++ (cs ++ (close.val ++ [';'])))) = cs := by
  obtain ⟨c, rest, hspace, hc, -⟩ := space_eq_cons space
  have hkc : k ≠ c := by
    rintro rfl
    rw [hk] at hc
    cases hc
  have hdrop : dropPrefixes (k :: ks) (space.val ++ (cs ++ (close.val ++ [';']))) =
      space.val ++ (cs ++ (close.val ++ [';'])) := by
    rw [hspace]
    exact dropPrefixes_of_ne hkc _
  rw [declared, dropPrefixes_append (List.cons_ne_nil k ks), hdrop,
    h.trim_eq space.property.1]

theorem declared_of_ne {k c : Char} {ks rest : List Char} (hc : k ≠ c)
    (h : Closable (c :: rest)) (close : Gap) :
    declared (k :: ks) (c :: rest ++ (close.val ++ [';'])) = c :: rest := by
  rw [declared, List.cons_append, dropPrefixes_of_ne hc]
  exact h.trim_eq (rfl : allBlank [] = true) close

end Closable

theorem Identifier.closable (i : Identifier) : Closable i.text := by
  constructor
  · obtain ⟨c, rest, htext⟩ := List.exists_cons_of_ne_nil i.nonempty
    exact ⟨c, rest, htext, (i.chars c (by simp [htext])).1⟩
  · obtain ⟨rest, c, htext⟩ := (List.eq_nil_or_concat' i.text).resolve_left i.nonempty
    have hchars := i.chars c (by simp [htext])
    exact ⟨rest, c, htext, hchars.1, hchars.2.2⟩

theorem Dotted.closable (name : Dotted) : Closable name.text := by
  induction name with
  | single name => exact name.closable
  | dot path before after name ih =>
      have htext : (Dotted.dot path before after name).text =
          path.text ++ ((before.val ++ '.' :: after.val) ++ name.text) := by
        simp [Dotted.text]
      rw [htext]
      exact ih.append _ name.closable

/-! ## Packages -/

namespace Dotted

theorem not_isBlank_of_mem_name (name : Dotted) : ∀ c ∈ name.name, isBlank c = false := by
  induction name with
  | single name => exact fun c hc => (name.chars c hc).1
  | dot path before after name ih =>
      intro c hc
      simp only [Dotted.name, List.mem_append, List.mem_cons] at hc
      rcases hc with hc | rfl | hc
      · exact ih c hc
      · decide
      · exact (name.chars c hc).1

theorem text_eq_name_of_compact {name : Dotted} (h : name.Compact) : name.text = name.name := by
  induction name with
  | single name => rfl
  | dot path before after name ih =>
      obtain ⟨hpath, hbefore, hafter⟩ := h
      simp [text, Dotted.name, ih hpath, hbefore, hafter]

theorem compact_of_not_isBlank {name : Dotted} (h : ∀ c ∈ name.text, isBlank c = false) :
    name.Compact := by
  induction name with
  | single name => trivial
  | dot path before after name ih =>
      simp only [text, List.mem_append, List.mem_cons] at h
      have hgap : ∀ gap : Gap, (∀ c ∈ gap.val, isBlank c = false) → gap.val = [] := by
        intro gap hnone
        rw [List.eq_nil_iff_forall_not_mem]
        intro c hc
        exact absurd (List.all_eq_true.mp gap.property c hc) (by simp [hnone c hc])
      exact ⟨ih fun c hc => h c (.inl hc), hgap before fun c hc => h c (.inr (.inl hc)),
        hgap after fun c hc => h c (.inr (.inr (.inr (.inl hc))))⟩

/-- Only a compact spelling is the name itself. -/
theorem text_eq_name_iff {name : Dotted} : name.text = name.name ↔ name.Compact := by
  constructor
  · intro h
    exact compact_of_not_isBlank (h ▸ name.not_isBlank_of_mem_name)
  · exact text_eq_name_of_compact

end Dotted

theorem PackageSpelling.packageName_text (d : PackageSpelling) : packageName d.text = d.read := by
  unfold packageName read
  split_ifs with hannotations
  · have hopening : d.opening = "package".toList ++ d.space.val := by
      simp [opening, List.isEmpty_iff.mp hannotations]
    rw [text, hopening, List.append_assoc]
    exact d.name.closable.declared_keyword (by decide) d.space d.close
  · obtain ⟨a, rest, hrest⟩ := List.exists_cons_of_ne_nil (by simpa using hannotations)
    obtain ⟨others, hopening⟩ : ∃ others, d.opening = '@' :: others := by
      rw [opening, hrest]
      exact ⟨_, rfl⟩
    obtain ⟨front, c, hlast, hc⟩ := d.name.closable.last
    have hclosable : Closable ('@' :: (others ++ d.name.text)) :=
      ⟨⟨'@', _, rfl, by decide⟩, ⟨'@' :: (others ++ front), c, by simp [hlast], hc⟩⟩
    rw [text, ← List.append_assoc, hopening]
    exact hclosable.declared_of_ne (by decide) d.close

/-- The name that is read is the name of the package exactly if no annotation and no white space
stands in the way. -/
theorem PackageSpelling.read_eq_iff (d : PackageSpelling) :
    d.read = d.name.name ↔ d.annotations = [] ∧ d.name.Compact := by
  unfold read
  split_ifs with hannotations
  · rw [Dotted.text_eq_name_iff, and_iff_right (List.isEmpty_iff.mp hannotations)]
  · refine iff_of_false ?_ fun h => hannotations (by simp [h.1])
    intro h
    -- The name has no white space, but some stands behind the keyword.
    obtain ⟨c, rest, hspace, hc, -⟩ := space_eq_cons d.space
    have hmem : c ∈ d.name.name := by
      rw [← h, opening]
      simp [hspace]
    rw [d.name.not_isBlank_of_mem_name c hmem] at hc
    cases hc

/-! ## Imports -/

/-- After the identifier that a name begins with, white space or a dot follows. -/
theorem Dotted.text_eq_first (name : Dotted) :
    ∃ rest, name.text = name.first.text ++ rest ∧ ∀ c ∈ rest.head?, isBlank c ∨ c = '.' := by
  induction name with
  | single name => exact ⟨[], (List.append_nil _).symm, by simp⟩
  | dot path before after name ih =>
      obtain ⟨rest, htext, hhead⟩ := ih
      refine ⟨rest ++ (before.val ++ '.' :: (after.val ++ name.text)), ?_, ?_⟩
      · rw [text, htext, List.append_assoc]
        rfl
      · cases rest with
        | cons c rest => exact hhead
        | nil =>
            cases hbefore : before.val with
            | nil => simp
            | cons c gap =>
                have hc := List.all_eq_true.mp before.property c (by simp [hbefore])
                simp [hc]

/-- A name does not begin with the keyword `static` and white space. -/
theorem Dotted.dropPrefix?_static {name : Dotted} {c : Char} {rest : List Char}
    (h : dropPrefix? "static".toList name.text = some (c :: rest)) : isBlank c = false := by
  by_contra hc
  rw [Bool.not_eq_false] at hc
  obtain ⟨others, htext, hhead⟩ := name.text_eq_first
  rw [dropPrefix?_eq_some_iff] at h
  -- The first identifier is all that stands before white space or a dot.
  let inside : Char → Bool := fun c => !isBlank c && c != '.'
  have hkeyword : name.text.takeWhile inside = "static".toList := by
    have hall : "static".toList.all inside = true := rfl
    rw [h, List.takeWhile_append_of_pos (List.all_eq_true.mp hall),
      List.takeWhile_cons_of_neg (by simp [inside, hc]), List.append_nil]
  have hfirst : name.text.takeWhile inside = name.first.text := by
    have hinside : ∀ c ∈ name.first.text, inside c = true := by
      intro c hc
      have hchars := name.first.chars c hc
      simp [inside, hchars.1, hchars.2.1]
    have hnone : others.takeWhile inside = [] := by
      cases others with
      | nil => rfl
      | cons c others =>
          have hc := hhead c rfl
          apply List.takeWhile_cons_of_neg
          rcases hc with hc | rfl <;> simp [inside, *]
    rw [htext, List.takeWhile_append_of_pos hinside, hnone, List.append_nil]
  exact name.first.notStatic (hfirst.symm.trans hkeyword)

@[simp] theorem removeBlanks_append (xs ys : List Char) :
    removeBlanks (xs ++ ys) = removeBlanks xs ++ removeBlanks ys :=
  List.filter_append ..

@[simp] theorem removeBlanks_cons_dot (cs : List Char) :
    removeBlanks ('.' :: cs) = '.' :: removeBlanks cs :=
  List.filter_cons_of_pos (by decide)

theorem removeBlanks_of_allBlank {cs : List Char} (h : allBlank cs = true) :
    removeBlanks cs = [] := by
  simpa [removeBlanks] using List.all_eq_true.mp h

theorem Dotted.removeBlanks_text (name : Dotted) : removeBlanks name.text = name.name := by
  have hidentifier : ∀ i : Identifier, removeBlanks i.text = i.text := by
    intro i
    simpa [removeBlanks] using fun c hc => (i.chars c hc).1
  induction name with
  | single name => exact hidentifier name
  | dot path before after name ih =>
      simp [Dotted.text, Dotted.name, ih, removeBlanks_of_allBlank before.property,
        removeBlanks_of_allBlank after.property, hidentifier]

namespace ImportSpelling

theorem declared_text (d : ImportSpelling) :
    declared "import".toList d.text =
      (d.static.map fun space => "static".toList ++ space.val).getD [] ++ d.path.text := by
  have hclosable : Closable
      ((d.static.map fun space => "static".toList ++ space.val).getD [] ++ d.path.text) := by
    cases d.static with
    | none => exact d.path.closable
    | some space =>
        have hkeyword : Closable "static".toList :=
          ⟨⟨'s', _, rfl, by decide⟩, ⟨"stati".toList, 'c', rfl, by decide⟩⟩
        simpa using hkeyword.append space.val d.path.closable
  exact hclosable.declared_keyword (by decide) d.space d.close

theorem importTarget_text (d : ImportSpelling) :
    importTarget d.text = (d.kind, d.path.name) := by
  rw [importTarget, declared_text, kind]
  cases d.static with
  | some space =>
      obtain ⟨c, rest, hspace, hc, hrest⟩ := space_eq_cons space
      have hdrop : dropPrefix? "static".toList
          ("static".toList ++ space.val ++ d.path.text) = some (c :: (rest ++ d.path.text)) := by
        rw [dropPrefix?_eq_some_iff, hspace]
        simp
      simp only [Option.map_some, Option.getD_some, hdrop, hc, if_true, removeBlanks_append,
        removeBlanks_of_allBlank hrest, Dotted.removeBlanks_text]
      rfl
  | none =>
      simp only [Option.map_none, Option.getD_none, List.nil_append, Dotted.removeBlanks_text]
      split
      · rename_i c rest hdrop
        rw [Dotted.dropPrefix?_static hdrop]
        rfl
      · rfl

/-- The path without white space is cut at its last dot. -/
theorem importNames_path (d : ImportSpelling) :
    importNames d.path.name = (String.ofList d.target.1, d.target.2) := by
  have hcut : ∀ (path : List Char) (last : Identifier),
      splitLast? ['.'] (path ++ '.' :: last.text) = some (path, last.text) := by
    intro path last
    have hdot : '.' ∉ last.text := fun hdot => (last.chars '.' hdot).2.1 rfl
    exact @splitLast?_append '.' [] path last.text hdot
  unfold path target importNames
  cases d.wildcard with
  | some gaps =>
      have hstar : String.ofList Identifier.star.text = "*" := rfl
      simp [Dotted.name, hcut, Identifier.star.nonempty, hstar, ImportedName.wildcard]
  | none =>
      cases d.name with
      | single name =>
          have hdot : '.' ∉ name.text := fun hdot => (name.chars '.' hdot).2.1 rfl
          have hnone : splitLast? ['.'] name.text = none := @splitLast?_eq_none '.' [] _ hdot
          simp [Dotted.name, hnone]
      | dot path before after name =>
          simp [Dotted.name, hcut, name.nonempty]

end ImportSpelling

/-! ## Declarations -/

/-- A package has the name in its declaration exactly if no annotation stands before the keyword and
no white space around the dots. An import is of the kind, the module and the names in its
declaration. -/
theorem declarations_read (source : List Char) (owner : Owner) (t : ParseTree) :
    (∀ d : PackageSpelling, t.kind = "package_declaration" → t.text source = d.text →
      member source owner t =
        [.branch (.package ⟨String.ofList d.read, t.location source⟩) []] ∧
      (d.read = d.name.name ↔ d.annotations = [] ∧ d.name.Compact)) ∧
    ∀ d : ImportSpelling, t.kind = "import_declaration" → t.text source = d.text →
      member source owner t =
        [.leaf (.imported
          { module := String.ofList d.target.1, kind := d.kind, names := d.target.2,
            location := t.location source })] := by
  constructor
  · intro d hkind htext
    refine ⟨?_, d.read_eq_iff⟩
    rw [member_of_package hkind, packageNode, htext, d.packageName_text]
  · intro d hkind htext
    rw [member_of_import hkind, importNode, htext, d.importTarget_text]
    dsimp only
    rw [d.importNames_path]

/-! ## Specimens -/

/-- A package declaration with an annotation on a line of its own. -/
def annotatedSpelling : PackageSpelling where
  annotations := [⟨['A'], ⟨['\n'], rfl⟩⟩]
  space := ⟨[' '], rfl, by simp⟩
  name := .dot (.single (.ofChar 'b' (by decide))) ⟨[], rfl⟩ ⟨[], rfl⟩ (.ofChar 'c' (by decide))
  close := ⟨[], rfl⟩

/-- The node of the package declaration. -/
def annotatedTree : ParseTree :=
  ⟨"package_declaration", "", true, false, false, 0, 15,
    [⟨"marker_annotation", "", true, false, false, 0, 2,
      [⟨"@", "", false, false, false, 0, 1, []⟩,
       ⟨"identifier", "name", true, false, false, 1, 2, []⟩]⟩,
     ⟨"package", "", false, false, false, 3, 10, []⟩,
     ⟨"scoped_identifier", "", true, false, false, 11, 14,
      [⟨"identifier", "scope", true, false, false, 11, 12, []⟩,
       ⟨".", "", false, false, false, 12, 13, []⟩,
       ⟨"identifier", "name", true, false, false, 13, 14, []⟩]⟩,
     ⟨";", "", false, false, false, 14, 15, []⟩]⟩

theorem text_annotatedTree :
    annotatedTree.text annotatedSpelling.text = annotatedSpelling.text := by
  decide

/-- A static import of everything, with white space wherever it may stand. -/
def spacedSpelling : ImportSpelling where
  space := ⟨['\n'], rfl, by simp⟩
  static := some ⟨['\t'], rfl, by simp⟩
  name := .dot (.single (.ofChar 'b' (by decide))) ⟨[' '], rfl⟩ ⟨['\n'], rfl⟩
    (.ofChar 'C' (by decide))
  wildcard := some (⟨[' '], rfl⟩, ⟨[' '], rfl⟩)
  close := ⟨[' '], rfl⟩

/-- The node of the import. -/
def spacedTree : ParseTree :=
  ⟨"import_declaration", "", true, false, false, 0, 25,
    [⟨"import", "", false, false, false, 0, 6, []⟩,
     ⟨"static", "", false, false, false, 7, 13, []⟩,
     ⟨"scoped_identifier", "", true, false, false, 14, 19,
      [⟨"identifier", "scope", true, false, false, 14, 15, []⟩,
       ⟨".", "", false, false, false, 16, 17, []⟩,
       ⟨"identifier", "name", true, false, false, 18, 19, []⟩]⟩,
     ⟨".", "", false, false, false, 20, 21, []⟩,
     ⟨"asterisk", "", true, false, false, 22, 23, []⟩,
     ⟨";", "", false, false, false, 24, 25, []⟩]⟩

theorem text_spacedTree : spacedTree.text spacedSpelling.text = spacedSpelling.text := by
  decide

theorem declarations_read_specimens :
    annotatedTree.kind = "package_declaration" ∧
    annotatedTree.text annotatedSpelling.text = annotatedSpelling.text ∧
    (member annotatedSpelling.text .file annotatedTree =
      [.branch (.package ⟨"@A\npackage b.c", annotatedTree.location annotatedSpelling.text⟩) []] ∧
    (annotatedSpelling.read = annotatedSpelling.name.name ↔
      annotatedSpelling.annotations = [] ∧ annotatedSpelling.name.Compact)) ∧
    spacedTree.kind = "import_declaration" ∧
    spacedTree.text spacedSpelling.text = spacedSpelling.text ∧
    member spacedSpelling.text .file spacedTree =
      [.leaf (.imported
        { module := "b.C", kind := .static, names := [.wildcard],
          location := spacedTree.location spacedSpelling.text })] :=
  ⟨rfl, text_annotatedTree,
    (declarations_read _ .file annotatedTree).1 annotatedSpelling rfl text_annotatedTree,
    rfl, text_spacedTree,
    (declarations_read _ .file spacedTree).2 spacedSpelling rfl text_spacedTree⟩

/-- Not every package has the name in its declaration. -/
theorem not_forall_package_named :
    ¬ ∀ (source : List Char) (owner : Owner) (t : ParseTree) (d : PackageSpelling),
      t.kind = "package_declaration" → t.text source = d.text →
        member source owner t =
          [.branch (.package ⟨String.ofList d.name.name, t.location source⟩) []] := by
  intro hall
  have hnamed := hall _ .file annotatedTree annotatedSpelling rfl text_annotatedTree
  rw [member_of_package rfl, packageNode, text_annotatedTree,
    annotatedSpelling.packageName_text] at hnamed
  simp only [List.cons.injEq, Node.branch.injEq, Head.package.injEq, PackageHead.mk.injEq] at hnamed
  exact absurd hnamed.1.1.1 (by decide)

end Precis.Java
