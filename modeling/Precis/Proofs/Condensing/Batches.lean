import Precis.Proofs.Condensing.Contents
import Precis.Proofs.Except

/-! # Reports of batches

A batch that goes on after failures puts down the result of every path in order, outlines and
failures apart. One that does not is all or nothing: it reports the outlines of all paths, or fails
with the first failure. Neither depends on the workers, as long as they are to be had and give the
results in the order of the paths. -/

namespace Precis

/-- The failure of an attempt that failed. -/
def failure? : Except Failure Outline → Option Failure
  | .ok _ => none
  | .error failure => some failure

namespace Report

/-! ## Collecting results -/

/-- The report that puts down all results. -/
def ofResults (results : List (String × Except Failure Outline)) : Report where
  outlines := results.filterMap fun x => x.2.toOption
  failures := results.filterMap fun x => (failure? x.2).map fun failure => (x.1, failure)

theorem ofResults_cons (path : String) (result : Except Failure Outline)
    (rest : List (String × Except Failure Outline)) :
    ofResults ((path, result) :: rest) = cons path result (ofResults rest) := by
  cases result <;> rfl

theorem collect_keepGoing (results : List (String × Except Failure Outline)) :
    collect true results = .ok (ofResults results) := by
  induction results with
  | nil => rfl
  | cons x rest ih =>
      obtain ⟨path, result⟩ := x
      rw [ofResults_cons]
      cases result <;> simp [collect, ih, Except.map]

theorem collect_of_ok (keepGoing : Bool) {results : List (String × Except Failure Outline)}
    (h : ∀ x ∈ results, ∃ outline, x.2 = .ok outline) :
    collect keepGoing results = .ok (ofResults results) := by
  induction results with
  | nil => rfl
  | cons x rest ih =>
      obtain ⟨path, result⟩ := x
      obtain ⟨⟨outline, rfl⟩, hrest⟩ := List.forall_mem_cons.mp h
      rw [ofResults_cons]
      simp [collect, ih hrest, Except.map]

/-- The first failure counts, whatever comes behind it. -/
theorem collect_of_error {before after : List (String × Except Failure Outline)} {path : String}
    {cause : Failure} (h : ∀ x ∈ before, ∃ outline, x.2 = .ok outline) :
    collect false (before ++ (path, .error cause) :: after) = .error (.within path cause) := by
  induction before with
  | nil => rfl
  | cons x before ih =>
      obtain ⟨first, result⟩ := x
      obtain ⟨⟨outline, rfl⟩, hbefore⟩ := List.forall_mem_cons.mp h
      simp [collect, ih hbefore, Except.map]

end Report

/-! ## Attempts -/

section Attempts

variable (attempt : String → Except Failure Outline)

/-- What became of each path. -/
def attempts (paths : List String) : List (String × Except Failure Outline) :=
  paths.map fun path => (path, attempt path)

/-- Either all paths succeed, or one of them is the first to fail. -/
theorem succeed_or_first_failure (paths : List String) :
    (∀ path ∈ paths, ∃ outline, attempt path = .ok outline) ∨
      ∃ before path cause after, paths = before ++ path :: after ∧
        (∀ earlier ∈ before, ∃ outline, attempt earlier = .ok outline) ∧
        attempt path = .error cause := by
  induction paths with
  | nil => exact .inl (List.forall_mem_nil _)
  | cons first rest ih =>
      cases hfirst : attempt first with
      | error cause => exact .inr ⟨[], first, cause, rest, rfl, List.forall_mem_nil _, hfirst⟩
      | ok outline =>
          rcases ih with hall | ⟨before, path, cause, after, rfl, hbefore, hpath⟩
          · exact .inl (List.forall_mem_cons.mpr ⟨⟨outline, hfirst⟩, hall⟩)
          · refine .inr ⟨first :: before, path, cause, after, rfl, ?_, hpath⟩
            exact List.forall_mem_cons.mpr ⟨⟨outline, hfirst⟩, hbefore⟩

/-- Every path is put down once, among the outlines or among the failures, in order and with what
became of it. -/
structure Report.Covers (paths : List String) (report : Report) : Prop where
  outlines : report.outlines = paths.filterMap fun path => (attempt path).toOption
  failures : report.failures =
    paths.filterMap fun path => (failure? (attempt path)).map fun failure => (path, failure)
  total : report.total = paths.length
  once : ∀ path, paths.count path =
    (report.outlines.map fun o => o.head.path).count path +
      (report.failures.map Prod.fst).count path
  apart : ∀ path ∈ paths,
    path ∈ report.outlines.map (fun o => o.head.path) ↔ path ∉ report.failures.map Prod.fst

variable {attempt}

theorem exists_error_iff {paths : List String} :
    (∃ path ∈ paths, ∃ failure, attempt path = .error failure) ↔
      ¬ ∀ path ∈ paths, ∃ outline, attempt path = .ok outline := by
  simp only [not_forall, exists_prop]
  refine exists_congr fun path => and_congr_right fun _ => ?_
  cases attempt path <;> simp

namespace Report

theorem outlines_ofResults_attempts (paths : List String) :
    (ofResults (attempts attempt paths)).outlines =
      paths.filterMap fun path => (attempt path).toOption :=
  List.filterMap_map

theorem failures_ofResults_attempts (paths : List String) :
    (ofResults (attempts attempt paths)).failures =
      paths.filterMap fun path => (failure? (attempt path)).map fun failure => (path, failure) :=
  List.filterMap_map

theorem mem_outlines_iff
    (h : ∀ path outline, attempt path = .ok outline → outline.head.path = path)
    {paths : List String} {path : String} :
    path ∈ (ofResults (attempts attempt paths)).outlines.map (fun o => o.head.path) ↔
      path ∈ paths ∧ ∃ outline, attempt path = .ok outline := by
  rw [outlines_ofResults_attempts]
  constructor
  · intro hmem
    obtain ⟨outline, houtline, rfl⟩ := List.mem_map.mp hmem
    obtain ⟨found, hfound, hok⟩ := List.mem_filterMap.mp houtline
    cases hattempt : attempt found with
    | error cause => simp [hattempt, Except.toOption] at hok
    | ok other =>
        obtain rfl : other = outline := by simpa [hattempt, Except.toOption] using hok
        rw [h found other hattempt]
        exact ⟨hfound, other, hattempt⟩
  · rintro ⟨hpath, outline, hok⟩
    refine List.mem_map.mpr ⟨outline, List.mem_filterMap.mpr ⟨path, hpath, ?_⟩, h path outline hok⟩
    rw [hok]
    rfl

theorem mem_failures_iff {paths : List String} {path : String} :
    path ∈ (ofResults (attempts attempt paths)).failures.map Prod.fst ↔
      path ∈ paths ∧ ∃ cause, attempt path = .error cause := by
  rw [failures_ofResults_attempts]
  constructor
  · intro hmem
    obtain ⟨⟨found, cause⟩, hpair, rfl⟩ := List.mem_map.mp hmem
    obtain ⟨other, hother, hfailure⟩ := List.mem_filterMap.mp hpair
    cases hattempt : attempt other with
    | ok outline => simp [hattempt, failure?] at hfailure
    | error reason =>
        obtain ⟨rfl, rfl⟩ : other = found ∧ reason = cause := by
          simpa [hattempt, failure?] using hfailure
        exact ⟨hother, reason, hattempt⟩
  · rintro ⟨hpath, cause, hfailure⟩
    refine List.mem_map.mpr ⟨(path, cause), List.mem_filterMap.mpr ⟨path, hpath, ?_⟩, rfl⟩
    rw [hfailure]
    rfl

theorem total_cons (path : String) (result : Except Failure Outline) (r : Report) :
    (cons path result r).total = r.total + 1 := by
  cases result <;> simp only [cons, total, List.length_cons] <;> omega

theorem count_cons {path : String} {result : Except Failure Outline}
    (h : ∀ outline, result = .ok outline → outline.head.path = path) (r : Report) (p : String) :
    ((cons path result r).outlines.map fun o => o.head.path).count p +
        ((cons path result r).failures.map Prod.fst).count p =
      (r.outlines.map fun o => o.head.path).count p + (r.failures.map Prod.fst).count p +
        if path == p then 1 else 0 := by
  cases result with
  | error failure =>
      simp only [cons, List.map_cons, List.count_cons]
      omega
  | ok outline =>
      simp only [cons, List.map_cons, List.count_cons, h outline rfl]
      omega

theorem covers_ofResults
    (h : ∀ path outline, attempt path = .ok outline → outline.head.path = path)
    (paths : List String) : Covers attempt paths (ofResults (attempts attempt paths)) where
  outlines := outlines_ofResults_attempts paths
  failures := failures_ofResults_attempts paths
  total := by
    induction paths with
    | nil => rfl
    | cons path rest ih =>
        rw [attempts, List.map_cons, ofResults_cons, ← attempts, total_cons, ih, List.length_cons]
  once := by
    intro path
    induction paths with
    | nil => rfl
    | cons first rest ih =>
        rw [attempts, List.map_cons, ofResults_cons, ← attempts, count_cons (h first),
          List.count_cons, ih]
  apart := by
    intro path hpath
    rw [mem_outlines_iff h, mem_failures_iff]
    cases hattempt : attempt path <;> simp [hpath]

theorem forall₂_attempt_iff {paths : List String} {outlines : List Outline} :
    List.Forall₂ (fun path outline => attempt path = .ok outline) paths outlines ↔
      (∀ path ∈ paths, ∃ outline, attempt path = .ok outline) ∧
        outlines = (ofResults (attempts attempt paths)).outlines := by
  rw [outlines_ofResults_attempts]
  induction paths generalizing outlines with
  | nil => simp
  | cons first rest ih =>
      rw [List.forall₂_cons_left_iff, List.forall_mem_cons]
      constructor
      · rintro ⟨outline, others, hfirst, hothers, rfl⟩
        obtain ⟨hrest, rfl⟩ := ih.mp hothers
        exact ⟨⟨⟨outline, hfirst⟩, hrest⟩, by simp [hfirst, Except.toOption]⟩
      · rintro ⟨⟨⟨outline, hfirst⟩, hrest⟩, rfl⟩
        exact ⟨outline, _, hfirst, ih.mpr ⟨hrest, rfl⟩, by simp [hfirst, Except.toOption]⟩

theorem failures_eq_nil_iff {paths : List String} :
    (ofResults (attempts attempt paths)).failures = [] ↔
      ∀ path ∈ paths, ∃ outline, attempt path = .ok outline := by
  rw [failures_ofResults_attempts, List.filterMap_eq_nil_iff]
  refine forall₂_congr fun path _ => ?_
  cases attempt path <;> simp [failure?]

theorem collect_attempts_of_ok (keepGoing : Bool) {paths : List String}
    (h : ∀ path ∈ paths, ∃ outline, attempt path = .ok outline) :
    collect keepGoing (attempts attempt paths) = .ok (ofResults (attempts attempt paths)) :=
  collect_of_ok keepGoing (List.forall_mem_map.mpr h)

theorem collect_attempts_of_error {before after : List String} {path : String} {cause : Failure}
    (hbefore : ∀ earlier ∈ before, ∃ outline, attempt earlier = .ok outline)
    (hpath : attempt path = .error cause) :
    collect false (attempts attempt (before ++ path :: after)) = .error (.within path cause) := by
  rw [attempts, List.map_append, List.map_cons, hpath]
  exact collect_of_error (List.forall_mem_map.mpr hbefore)

theorem collect_attempts_eq_ok_iff {paths : List String} {report : Report} :
    collect false (attempts attempt paths) = .ok report ↔
      List.Forall₂ (fun path outline => attempt path = .ok outline) paths report.outlines ∧
        report.failures = [] := by
  rw [forall₂_attempt_iff]
  constructor
  · intro h
    rcases succeed_or_first_failure attempt paths with
      hall | ⟨before, path, cause, after, rfl, hbefore, hpath⟩
    · obtain rfl := Except.ok.inj ((collect_attempts_of_ok false hall).symm.trans h)
      exact ⟨⟨hall, rfl⟩, failures_eq_nil_iff.mpr hall⟩
    · rw [collect_attempts_of_error hbefore hpath] at h
      cases h
  · rintro ⟨⟨hall, houtlines⟩, hfailures⟩
    have hreport : report = ofResults (attempts attempt paths) := by
      obtain ⟨outlines, failures⟩ := report
      rw [Report.mk.injEq]
      exact ⟨houtlines, hfailures.trans (failures_eq_nil_iff.mpr hall).symm⟩
    rw [collect_attempts_of_ok false hall, hreport]

theorem collect_attempts_eq_error_iff {paths : List String} {failure : Failure} :
    collect false (attempts attempt paths) = .error failure ↔
      ∃ before path cause after, paths = before ++ path :: after ∧
        (∀ earlier ∈ before, ∃ outline, attempt earlier = .ok outline) ∧
        attempt path = .error cause ∧ failure = .within path cause := by
  constructor
  · intro h
    rcases succeed_or_first_failure attempt paths with
      hall | ⟨before, path, cause, after, rfl, hbefore, hpath⟩
    · rw [collect_attempts_of_ok false hall] at h
      cases h
    · rw [collect_attempts_of_error hbefore hpath] at h
      exact ⟨before, path, cause, after, rfl, hbefore, hpath, (Except.error.inj h).symm⟩
  · rintro ⟨before, path, cause, after, rfl, hbefore, hpath, rfl⟩
    exact collect_attempts_of_error hbefore hpath

end Report

end Attempts

/-! ## Batches of files -/

theorem outline_path {r : Registry} {path : String} {source : Source} {o : Outline}
    (h : r.outline path source = .ok o) : o.head.path = path := by
  unfold Registry.outline at h
  cases hfrontend : r.frontendFor? path with
  | none => simp [hfrontend] at h
  | some frontend =>
      simp only [hfrontend] at h
      cases frontend with
      | stub language =>
          obtain rfl := Except.ok.inj h
          rfl
      | unusable grammar reason => cases h
      | parsing grammar =>
          simp only [Frontend.outline] at h
          split at h
          · obtain rfl := Except.ok.inj h
            rfl
          · cases h

theorem condenseFile_path {r : Registry} {s : Settings} {folder : Folder} {path : String}
    {o : Outline} (h : condenseFile r s folder path = .ok o) : o.head.path = path := by
  obtain ⟨source, -, h⟩ := bind_eq_ok.mp h
  obtain ⟨outlined, houtlined, h⟩ := bind_eq_ok.mp h
  obtain ⟨-, rfl⟩ := Selection.prune_eq_ok_iff.mp (mapError_eq_ok.mp h)
  have hpath : outlined.head.path = path := outline_path (mapError_eq_ok.mp houtlined)
  exact hpath

section Workers

variable (r : Registry) {s : Settings} {system : System}

/-- The workers do not matter if they are to be had and keep the order. -/
theorem condenseFiles_eq (horder : system.pool.KeepsOrder) (hoffer : system.pool.Offers s.workers)
    (paths : List String) :
    condenseFiles r s system paths =
      Report.collect s.keepGoing (attempts (condenseFile r s system.folder) paths) := by
  rw [condenseFiles, hoffer, horder, attempts, List.map_prod_left_eq_zip]

theorem condenseFiles_of_refused {reason : String}
    (h : system.pool.refuses? s.workers = some reason) (paths : List String) :
    condenseFiles r s system paths = .error (.badSettings ("worker pool: " ++ reason)) := by
  rw [condenseFiles, h]

end Workers

/-- What becomes of a batch for which there are workers, in terms of what becomes of each path alone.
If failures are put down, there is a report, and it covers all paths. Otherwise there is one exactly
if all paths succeed, with their outlines in order, and the batch fails with the first failure, in
the context of its path. -/
theorem condenseFiles_result (r : Registry) (s : Settings) (system : System)
    (horder : system.pool.KeepsOrder) (hoffer : system.pool.Offers s.workers)
    (paths : List String) :
    (s.keepGoing = true →
      ∃ report, condenseFiles r s system paths = .ok report ∧
        report.Covers (condenseFile r s system.folder) paths) ∧
    (s.keepGoing = false →
      (∀ report, condenseFiles r s system paths = .ok report ↔
        List.Forall₂ (fun path outline => condenseFile r s system.folder path = .ok outline) paths
          report.outlines ∧ report.failures = []) ∧
      ∀ failure, condenseFiles r s system paths = .error failure ↔
        ∃ before path cause after, paths = before ++ path :: after ∧
          (∀ earlier ∈ before, ∃ outline, condenseFile r s system.folder earlier = .ok outline) ∧
          condenseFile r s system.folder path = .error cause ∧ failure = .within path cause) := by
  have hbatch := condenseFiles_eq r horder hoffer paths
  refine ⟨?_, ?_⟩
  · intro hgo
    refine ⟨_, ?_, Report.covers_ofResults (fun _ _ => condenseFile_path) paths⟩
    rw [hbatch, hgo, Report.collect_keepGoing]
  · intro hstop
    rw [hbatch, hstop]
    exact ⟨fun _ => Report.collect_attempts_eq_ok_iff,
      fun _ => Report.collect_attempts_eq_error_iff⟩

/-- A working directory with two source files, one of which cannot be read. -/
def hueFolder : Folder where
  files := [(["Hue.java"], { bytes := hueBytes, tree := some hueTree }), (["Sealed.java"], .ofText [])]
  seals := [(["Sealed.java"], "Permission denied (os error 13)")]

/-- What is left of the readable file if package-private declarations are kept, and comments are
not. -/
def Outline.hue : Outline where
  head :=
    { path := "Hue.java", language := .java
      location := { startLine := 1, endLine := 4, endColumn := 3, endByte := 35 } }
  children :=
    [.branch
      (.type
        { kind := .enumType, name := "Hue", visibility := .package
          doc := some ⟨"/** Hues. */", .doc,
            { startLine := 1, endLine := 1, endColumn := 12, endByte := 12 }⟩
          location :=
            { startLine := 2, endLine := 2, endColumn := 11, startByte := 13, endByte := 24 } }) [],
     .leaf (.problem
      { message := "Source is not valid UTF-8; invalid bytes were replaced", severity := .warning
        code := some "encoding"
        location := { startLine := 1, endLine := 4, endColumn := 3, endByte := 35 } }),
     .leaf (.problem
      { message := "Syntax error near `\ufffd`", severity := .error, code := some "syntax"
        location :=
          { startLine := 4, endLine := 4, endColumn := 3, startByte := 32, endByte := 35 } })]

/-- The comment at the end stands between the declaration and what is wrong with the source. -/
theorem outline_hue :
    Grammar.java.outline "Hue.java" hueBytes hueTree =
      { Outline.hue with
        children := Outline.hue.children.take 1 ++
          .leaf (.comment ⟨"// end", .line,
            { startLine := 3, endLine := 3, endColumn := 6, startByte := 25, endByte := 31 }⟩) ::
          Outline.hue.children.drop 1 } := by
  have htext : Text.decodeLossy hueBytes =
      "/** Hues. */\nenum Hue \x7b\x7d\n// end\n\ufffd".toList := by decide +kernel
  have hproblems : sourceProblems hueBytes hueTree =
      (Outline.hue.children.drop 1).filterMap Node.problem? := by decide +kernel
  have hparts : hueTree.parts = hueTree.children := rfl
  have herror : ∀ source,
      Java.member source .file ⟨"ERROR", "", true, false, true, 32, 35, []⟩ = [] := by
    intro source
    rw [Java.member]
    rfl
  rw [Grammar.outline, hproblems, htext, Grammar.nodes, Java.outline, Java.members_eq, hparts,
    hueTree]
  simp only [List.map_cons, List.map_nil, Java.member_of_enum, herror]
  rfl

theorem condenseFile_hue {s : Settings} (h : s.selection = { internalItems := true }) :
    condenseFile .standard s hueFolder "Hue.java" = .ok .hue := by
  have hfrontend : Registry.standard.frontendFor? "Hue.java" = some (.parsing .java) := by
    decide +kernel
  have hread : hueFolder.content "Hue.java" =
      .ok { bytes := hueBytes, tree := some hueTree } := rfl
  rw [condenseFile, hread]
  refine (condense_eq s hueBytes hueTree hfrontend).2.trans ?_
  rw [outline_hue, h]
  rfl

theorem condenseFile_lost (s : Settings) :
    condenseFile .standard s hueFolder "Lost.java" = .error (.notFound "Lost.java") := rfl

theorem condenseFile_sealed (s : Settings) :
    condenseFile .standard s hueFolder "Sealed.java" =
      .error (.unreadable "Permission denied (os error 13)") := rfl

/-- Two workers, each of which gets half of a batch. -/
def Pool.pair : Pool where
  refusal? workers := if workers ≤ 2 then none else some "too many workers"
  run _ attempt paths :=
    let half := paths.length / 2
    (paths.take half).map attempt ++ (paths.drop half).map attempt

theorem Pool.pair_keepsOrder : pair.KeepsOrder := by
  intro workers attempt paths
  simp only [pair]
  rw [← List.map_append, List.take_append_drop]

/-- A file that is not there is put down as often as it is named, and one that cannot be read is put
down as well, or the first of them fails the whole batch. -/
theorem condenseFiles_result_hue :
    (∃ report, condenseFiles .standard
        { selection := { internalItems := true }, keepGoing := true, workers := 2 }
        { folder := hueFolder, pool := .pair }
        ["Lost.java", "Hue.java", "Sealed.java", "Lost.java"] = .ok report ∧
      report.total = 4 ∧
      report.failures.map Prod.fst = ["Lost.java", "Sealed.java", "Lost.java"] ∧
      report.outlines = [.hue]) ∧
    condenseFiles .standard { selection := { internalItems := true }, workers := 2 }
        { folder := hueFolder, pool := .pair } ["Hue.java", "Sealed.java", "Lost.java"] =
      .error (.within "Sealed.java" (.unreadable "Permission denied (os error 13)")) := by
  refine ⟨?_, ?_⟩
  · obtain ⟨report, hreport, hcovers⟩ :=
      (condenseFiles_result .standard
        { selection := { internalItems := true }, keepGoing := true, workers := 2 }
        { folder := hueFolder, pool := .pair } Pool.pair_keepsOrder rfl
        ["Lost.java", "Hue.java", "Sealed.java", "Lost.java"]).1 rfl
    refine ⟨report, hreport, hcovers.total, ?_, ?_⟩
    · simp [hcovers.failures, condenseFile_lost, condenseFile_sealed, condenseFile_hue, failure?]
    · rw [hcovers.outlines]
      simp [List.filterMap_cons, condenseFile_lost, condenseFile_sealed, condenseFile_hue,
        Except.toOption]
  · apply ((condenseFiles_result .standard
      { selection := { internalItems := true }, workers := 2 }
      { folder := hueFolder, pool := .pair } Pool.pair_keepsOrder rfl
      ["Hue.java", "Sealed.java", "Lost.java"]).2 rfl).2 _ |>.mpr
    refine ⟨["Hue.java"], "Sealed.java", .unreadable "Permission denied (os error 13)",
      ["Lost.java"], rfl, ?_, rfl, rfl⟩
    exact List.forall_mem_singleton.mpr ⟨.hue, condenseFile_hue rfl⟩

/-- There is no third worker. -/
example : condenseFiles .standard { workers := 3 } { folder := hueFolder, pool := .pair } [] =
    .error (.badSettings "worker pool: too many workers") := rfl

end Precis
