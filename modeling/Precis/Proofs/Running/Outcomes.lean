import Precis.CommandLine
import Precis.Proofs.Condensing.Batches
import Precis.Proofs.Interchange.RoundTrip
import Precis.Proofs.Running.Writing

/-! # Outcomes of requests

A request comes to nothing, or all of what it asks for is delivered at once. Nothing is printed or
written before every file has been read, and the exit status tells whether anything was amiss: with
the settings, the workers, the files or the output. -/

namespace Precis.CommandLine

/-- Nothing comes of a command but a line that says what stopped it. -/
structure Outcome.Aborts (o : Outcome) (system : System) : Prop where
  status : o.status = 1
  output : o.output = ""
  folder : o.folder = system.folder
  line : ∃ stop : Stop, o.errors = [stop.line]

/-! ## Merged settings -/

namespace Request

/-- Settings with the flags of a request on top: each switches something on or off that was stored,
in any order. -/
def merge (r : Request) (s : Settings) : Settings where
  selection :=
    { bodies := s.selection.bodies || r.flags.contains .bodies
      privateItems := s.selection.privateItems || r.flags.contains .privateItems
      protectedItems := s.selection.protectedItems || r.flags.contains .protectedItems
      internalItems := s.selection.internalItems || r.flags.contains .internalItems
      comments := s.selection.comments || r.flags.contains .comments
      docs := s.selection.docs && !r.flags.contains .noDocs
      imports := s.selection.imports && !r.flags.contains .noImports
      fields := s.selection.fields && !r.flags.contains .noFields
      functions := s.selection.functions && !r.flags.contains .noFunctions
      decorators := s.selection.decorators && !r.flags.contains .noDecorators }
  workers := r.workers.getD s.workers
  keepGoing := s.keepGoing || r.flags.contains .keepGoing

theorem foldl_apply (flags : List Flag) (s : Settings) :
    flags.foldl Flag.apply s = merge { flags := flags } s := by
  induction flags generalizing s with
  | nil => simp [merge]
  | cons flag rest ih =>
      rw [List.foldl_cons, ih]
      cases flag <;> simp [merge, Flag.apply, Flag.select, beq_eq_decide]

theorem settings_eq (r : Request) (system : System) :
    r.settings system = (r.stored system).map r.merge := by
  rw [settings]
  cases r.stored system with
  | error stop => rfl
  | ok s =>
      simp only [foldl_apply]
      rfl

/-! ## The array -/

/-- The outlines of all files of a request that condense under some settings, in order. -/
def outlines (r : Request) (s : Settings) (folder : Folder) : List Outline :=
  r.files.filterMap fun path => (condenseFile .standard s folder path).toOption

/-- The text that a request delivers under some settings. -/
def array (r : Request) (s : Settings) (folder : Folder) : List Char :=
  (Json.Value.arr ((r.outlines s folder).map Outline.encode)).indented 0 ++ ['\n']

/-- A line for each file that does not condense, in order. -/
def complaints (r : Request) (s : Settings) (folder : Folder) : List String :=
  r.files.filterMap fun path =>
    (failure? (condenseFile .standard s folder path)).map fun failure =>
      "Error: " ++ path ++ ": " ++ failure.message

/-- A text is an array of outlines, in order. They can be read back from it, unless a position is no
index or an outline nests too deeply to be an element of an array. -/
structure Holds (text : List Char) (outlines : List Outline) : Prop where
  parsed : Json.Document.parse text = ⟨(Json.Value.arr (outlines.map Outline.encode)).reading, true⟩
  decoded : (∀ o ∈ outlines, o.Indexed ∧ o.encode.depth < Json.depthLimit) →
    Json.decodeText (Json.asList Outline.decode) text = .ok outlines

theorem holds_array (r : Request) (s : Settings) (folder : Folder) :
    Holds (r.array s folder) (r.outlines s folder) := by
  have hparsed : Json.Document.parse (r.array s folder) =
      ⟨(Json.Value.arr ((r.outlines s folder).map Outline.encode)).reading, true⟩ := by
    have hgap : Json.IsGap ['\n'] := by simp [Json.IsGap, Json.Scan.isSpace]
    have hwrites := Json.WritesDocument.intro Json.isGap_nil
      (Json.spells_indented (.arr ((r.outlines s folder).map Outline.encode)) 0).writes hgap
    exact hwrites.parse_eq
  refine ⟨hparsed, fun houtlines => ?_⟩
  have hwithin : (Json.Value.arr ((r.outlines s folder).map Outline.encode)).Within
      Json.depthLimit := by
    refine Json.within_arr.mpr ⟨by decide, List.forall_mem_map.mpr fun o ho => ?_⟩
    obtain ⟨hindexed, hdepth⟩ := houtlines o ho
    exact ⟨Nat.le_sub_one_of_lt hdepth, hindexed.encode⟩
  have hdecoded := Json.restores_asList (fun _ _ => Outline.restores) _ hwithin
  simp only [Json.decodeText, hparsed, hdecoded]
  rfl

/-! ## Delivery -/

/-- The output of a request takes a text as a whole. -/
def Writable (r : Request) (system : System) (text : List Char) : Prop :=
  match r.output with
  | none => system.output.Takes text
  | some path => system.folder.Takes path text

/-- A text is where the request wants it, on the standard output or in a file, and nothing else has
changed. -/
structure Places (r : Request) (system : System) (text : List Char) (o : Outcome) : Prop where
  printed : r.output = none → o.output = String.ofList text ∧ o.folder = system.folder
  written : ∀ path, r.output = some path →
    o.output = "" ∧ system.folder.Rewritten path text o.folder

/-- At most a beginning of a text is where the request wants it, and nothing else has changed. -/
structure Spills (r : Request) (system : System) (text : List Char) (o : Outcome) : Prop where
  printed : r.output = none →
    (∃ cut, cut <+: text ∧ o.output = String.ofList cut) ∧ o.folder = system.folder
  written : ∀ path, r.output = some path →
    o.output = "" ∧
      (o.folder = system.folder ∨ ∃ cut, cut <+: text ∧ system.folder.Rewritten path cut o.folder)

/-- What a request comes to if failures are put down, or there are none. The array goes to the output
and a line for each failure to the errors, and only failures count against the exit status, as long
as the output takes the array. -/
structure Delivers (r : Request) (s : Settings) (system : System) (o : Outcome) : Prop where
  content : Holds (r.array s system.folder) (r.outlines s system.folder)
  placed : r.Writable system (r.array s system.folder) →
    r.Places system (r.array s system.folder) o
  lines : r.Writable system (r.array s system.folder) → o.errors = r.complaints s system.folder
  status : r.Writable system (r.array s system.folder) →
    (o.status = 1 ↔
      ∃ path ∈ r.files, ∃ failure, condenseFile .standard s system.folder path = .error failure)
  spilled : ¬ r.Writable system (r.array s system.folder) →
    r.Spills system (r.array s system.folder) o ∧ o.status = 1 ∧
      ∃ stop : Stop, o.errors = r.complaints s system.folder ++ [stop.line]

section Delivery

variable {r : Request} {system : System} {text : List Char} {report : Report}

theorem emit_stop : (r.emit system text).stop = none ↔ r.Writable system text := by
  cases houtput : r.output with
  | none => simp only [emit, Writable, houtput, Option.map_eq_none_iff, Outlet.Takes]
  | some path =>
      simp only [emit, Writable, houtput, Option.map_eq_none_iff]
      by_cases htakes : system.folder.Takes path text
      · obtain ⟨g, hwrite, -⟩ := Folder.write_of_takes htakes
        simp [hwrite, htakes]
      · obtain ⟨g, reason, hwrite, -⟩ := Folder.write_of_not_takes htakes
        simp [hwrite, htakes]

theorem deliver_status : (r.deliver system report).status = 0 ↔
    report.failures = [] ∧ r.Writable system (render report) := by
  simp [deliver, Report.isSuccess, ← emit_stop]

theorem deliver_places (h : r.Writable system (render report)) :
    r.Places system (render report) (r.deliver system report) := by
  cases houtput : r.output with
  | none =>
      have htakes : system.output.Takes (render report) := by simpa only [Writable, houtput] using h
      refine ⟨fun _ => ?_, fun path hpath => by simp [houtput] at hpath⟩
      simp only [deliver, emit, houtput, htakes.passed_eq, and_self]
  | some path =>
      have htakes : system.folder.Takes path (render report) := by
        simpa only [Writable, houtput] using h
      obtain ⟨g, hwrite, hrewritten⟩ := Folder.write_of_takes htakes
      refine ⟨fun hnone => by simp [houtput] at hnone, fun other hother => ?_⟩
      obtain rfl := Option.some.inj (houtput.symm.trans hother)
      simp only [deliver, emit, houtput, hwrite, true_and]
      exact hrewritten

theorem deliver_spills (h : ¬ r.Writable system (render report)) :
    r.Spills system (render report) (r.deliver system report) := by
  cases houtput : r.output with
  | none =>
      refine ⟨fun _ => ?_, fun path hpath => by simp [houtput] at hpath⟩
      simp only [deliver, emit, houtput, and_true]
      exact ⟨_, system.output.passed_isPrefix _, rfl⟩
  | some path =>
      have htakes : ¬ system.folder.Takes path (render report) := by
        simpa only [Writable, houtput] using h
      obtain ⟨g, reason, hwrite, hleft⟩ := Folder.write_of_not_takes htakes
      refine ⟨fun hnone => by simp [houtput] at hnone, fun other hother => ?_⟩
      obtain rfl := Option.some.inj (houtput.symm.trans hother)
      simp only [deliver, emit, houtput, hwrite, true_and]
      exact hleft

end Delivery

section Reports

variable (r : Request) (s : Settings) (folder : Folder)

/-- The report on all files of a request, each condensed on its own. -/
def fullReport : Report :=
  .ofResults (attempts (condenseFile .standard s folder) r.files)

theorem render_fullReport : render (r.fullReport s folder) = r.array s folder := by
  rw [render, fullReport, Report.outlines_ofResults_attempts]
  rfl

theorem failureLines_fullReport :
    (r.fullReport s folder).failures.map failureLine = r.complaints s folder := by
  rw [fullReport, Report.failures_ofResults_attempts, List.map_filterMap]
  simp [complaints, failureLine, Function.comp_def]

theorem failures_fullReport_eq_nil_iff : (r.fullReport s folder).failures = [] ↔
    ∀ path ∈ r.files, ∃ o, condenseFile .standard s folder path = .ok o :=
  Report.failures_eq_nil_iff

end Reports

theorem deliver_delivers (r : Request) (s : Settings) (system : System) :
    r.Delivers s system (r.deliver system (r.fullReport s system.folder)) := by
  have hlines := r.failureLines_fullReport s system.folder
  have hfailures : (∃ path ∈ r.files, ∃ failure,
      condenseFile .standard s system.folder path = .error failure) ↔
        (r.fullReport s system.folder).failures ≠ [] := by
    rw [exists_error_iff, ← failures_fullReport_eq_nil_iff]
  refine ⟨r.holds_array s system.folder, ?_, ?_, ?_, ?_⟩
  all_goals rw [← render_fullReport]
  · exact deliver_places
  · intro hwritable
    simp [hlines, deliver, emit_stop.mpr hwritable]
  · intro hwritable
    simp [hfailures, deliver, emit_stop.mpr hwritable, Report.isSuccess]
  · intro hunwritable
    obtain ⟨stop, hstop⟩ := Option.ne_none_iff_exists'.mp (mt emit_stop.mp hunwritable)
    refine ⟨deliver_spills hunwritable, ?_, stop, ?_⟩
    · simp [deliver, hstop]
    · simp [hlines, deliver, hstop]

/-! ## Runs -/

section Runs

variable {r : Request} {system : System}

theorem run_of_stored_error {stop : Stop} (h : r.stored system = .error stop) :
    (r.run system).Aborts system := by
  have hrun : r.run system = { status := 1, errors := [stop.line], folder := system.folder } := by
    rw [run, report, settings_eq, h]
    rfl
  rw [hrun]
  exact ⟨rfl, rfl, rfl, stop, rfl⟩

theorem run_of_stored {s : Settings} (h : r.stored system = .ok s) :
    r.run system =
      match condenseFiles .standard (r.merge s) system r.files with
      | .ok report => r.deliver system report
      | .error failure =>
        { status := 1, errors := [(Stop.failure failure).line], folder := system.folder } := by
  rw [run, report, settings_eq, h]
  cases hbatch : condenseFiles .standard (r.merge s) system r.files <;>
    simp [Except.map, bind, Except.bind, hbatch, Except.mapError]

theorem run_of_batch_error {s : Settings} {failure : Failure} (h : r.stored system = .ok s)
    (hbatch : condenseFiles .standard (r.merge s) system r.files = .error failure) :
    (r.run system).Aborts system := by
  rw [run_of_stored h, hbatch]
  exact ⟨rfl, rfl, rfl, _, rfl⟩

theorem run_of_refused {s : Settings} (h : r.stored system = .ok s)
    (hrefused : ¬ system.pool.Offers (r.merge s).workers) : (r.run system).Aborts system := by
  obtain ⟨reason, hreason⟩ := Option.ne_none_iff_exists'.mp hrefused
  exact run_of_batch_error h (condenseFiles_of_refused _ hreason r.files)

section Workers

variable {s : Settings} (horder : system.pool.KeepsOrder)
include horder

theorem run_of_offered (h : r.stored system = .ok s)
    (hoffer : system.pool.Offers (r.merge s).workers)
    (hgo : (r.merge s).keepGoing = true ∨
      ∀ path ∈ r.files, ∃ o, condenseFile .standard (r.merge s) system.folder path = .ok o) :
    r.run system = r.deliver system (r.fullReport (r.merge s) system.folder) := by
  rw [run_of_stored h, condenseFiles_eq _ horder hoffer]
  rcases hgo with hgo | hall
  · rw [hgo, Report.collect_keepGoing, fullReport]
  · rw [Report.collect_attempts_of_ok _ hall, fullReport]

theorem run_of_failure (h : r.stored system = .ok s) (hstop : (r.merge s).keepGoing = false)
    (hfailure : ∃ path ∈ r.files, ∃ failure,
      condenseFile .standard (r.merge s) system.folder path = .error failure) :
    (r.run system).Aborts system := by
  by_cases hoffer : system.pool.Offers (r.merge s).workers
  · rcases succeed_or_first_failure (condenseFile .standard (r.merge s) system.folder) r.files with
      hall | ⟨before, path, cause, after, hfiles, hbefore, hpath⟩
    · exact absurd hall (exists_error_iff.mp hfailure)
    · have hbatch : condenseFiles .standard (r.merge s) system r.files =
          .error (.within path cause) := by
        rw [condenseFiles_eq _ horder hoffer, hstop, hfiles,
          Report.collect_attempts_of_error hbefore hpath]
      exact run_of_batch_error h hbatch
  · exact run_of_refused h hoffer

theorem run_status : (r.run system).status = 0 ↔
    ∃ s, r.stored system = .ok s ∧ system.pool.Offers (r.merge s).workers ∧
      (∀ path ∈ r.files, ∃ o, condenseFile .standard (r.merge s) system.folder path = .ok o) ∧
      r.Writable system (r.array (r.merge s) system.folder) := by
  cases hstored : r.stored system with
  | error stop => simp [(run_of_stored_error hstored).status]
  | ok s =>
      simp only [Except.ok.injEq, exists_eq_left']
      by_cases hoffer : system.pool.Offers (r.merge s).workers
      · by_cases hgo : (r.merge s).keepGoing = true ∨
            ∀ path ∈ r.files, ∃ o, condenseFile .standard (r.merge s) system.folder path = .ok o
        · rw [run_of_offered horder hstored hoffer hgo, deliver_status, render_fullReport,
            failures_fullReport_eq_nil_iff]
          simp only [hoffer, true_and]
        · obtain ⟨hstop, hall⟩ := not_or.mp hgo
          have haborts := run_of_failure horder hstored (by simpa using hstop)
            (exists_error_iff.mpr hall)
          simp [haborts.status, hall]
      · simp [(run_of_refused hstored hoffer).status, hoffer]

end Workers

end Runs

end Request

/-- What becomes of a command to condense files. It succeeds exactly if the settings load and there
are as many workers as they ask for, every file condenses and the output takes the text. If the
settings are at fault, for what is stored or for the number of workers, or a file fails and nothing
says to go on, nothing is printed and no file changes. If something says to go on, or no file fails,
the outlines of all files that condense are delivered, with a line for each file that does not. -/
theorem run_outcome {arguments : List String} {r : Request}
    (hparse : parse arguments = .condense r) (system : System)
    (horder : system.pool.KeepsOrder) :
    ((run arguments system).status = 0 ↔
      ∃ s, r.stored system = .ok s ∧ system.pool.Offers (r.merge s).workers ∧
        (∀ path ∈ r.files, ∃ o, condenseFile .standard (r.merge s) system.folder path = .ok o) ∧
        r.Writable system (r.array (r.merge s) system.folder)) ∧
    (∀ stop, r.stored system = .error stop → (run arguments system).Aborts system) ∧
    (∀ s, r.stored system = .ok s → ¬ system.pool.Offers (r.merge s).workers →
      (run arguments system).Aborts system) ∧
    (∀ s, r.stored system = .ok s → s.keepGoing = false → .keepGoing ∉ r.flags →
      (∃ path ∈ r.files, ∃ failure,
        condenseFile .standard (r.merge s) system.folder path = .error failure) →
      (run arguments system).Aborts system) ∧
    (∀ s, r.stored system = .ok s →
      (s.keepGoing = true ∨ .keepGoing ∈ r.flags ∨
        ∀ path ∈ r.files, ∃ o, condenseFile .standard (r.merge s) system.folder path = .ok o) →
      system.pool.Offers (r.merge s).workers →
      r.Delivers (r.merge s) system (run arguments system)) := by
  have hrun : run arguments system = r.run system := by rw [run, hparse]
  rw [hrun]
  refine ⟨Request.run_status horder, fun stop => Request.run_of_stored_error,
    fun s => Request.run_of_refused, ?_, ?_⟩
  · intro s hstored hstop hflags hfailure
    have hmerge : (r.merge s).keepGoing = false := by simp [Request.merge, hstop, hflags]
    exact Request.run_of_failure horder hstored hmerge hfailure
  · intro s hstored hgo hoffer
    have hmerge : (r.merge s).keepGoing = true ↔ s.keepGoing = true ∨ .keepGoing ∈ r.flags := by
      simp [Request.merge]
    rw [← or_assoc, ← hmerge] at hgo
    rw [Request.run_of_offered horder hstored hoffer hgo]
    exact r.deliver_delivers (r.merge s) system

/-- A working directory with one readable source file, two workers, and a standard output that nobody
listens to. -/
def mutedHue : System where
  folder := hueFolder
  pool := .pair
  output := .shut "Broken pipe (os error 32)"

/-- The requests below name no settings file, and there is none in the folder. -/
theorem Request.stored_hue {r : Request} (h : r.settingsFile = none) :
    r.stored hueFolder = .ok {} ∧ r.stored mutedHue = .ok {} := by
  simp only [stored, h]
  exact ⟨rfl, rfl⟩

theorem Request.results_hue {r : Request} {s : Settings}
    (hs : s.selection = { internalItems := true })
    (hfiles : r.files = ["Lost.java", "Hue.java", "Sealed.java"]) :
    r.outlines s hueFolder = [.hue] ∧
      r.complaints s hueFolder =
        ["Error: Lost.java: File not found: Lost.java",
         "Error: Sealed.java: IO error: Permission denied (os error 13)"] := by
  simp only [outlines, complaints, hfiles, List.filterMap_cons, List.filterMap_nil,
    condenseFile_lost, condenseFile_sealed, condenseFile_hue hs, Except.toOption, failure?,
    Option.map_some, Option.map_none, true_and]
  rfl

/-- A file that is lost or sealed stops a command, unless it is told to go on, and so do settings
that are lost, a third worker and an output that nobody listens to. What is printed or written holds
the outline of the only other file. -/
theorem run_outcome_hue :
    (run ["--internal", "Hue.java"] hueFolder).status = 0 ∧
    (run ["--internal", "Hue.java"] mutedHue).status ≠ 0 ∧
    (run ["--config", "Lost.json", "Hue.java"] hueFolder).output = "" ∧
    (run ["--workers", "3", "-o", "out.json", "Hue.java"] mutedHue).folder = hueFolder ∧
    (run ["-o", "out.json", "Hue.java", "Sealed.java"] hueFolder).folder = hueFolder ∧
    (run ["Lost.java", "--internal", "--continue-on-error", "Hue.java", "Sealed.java"]
      hueFolder).status = 1 ∧
    (run ["Lost.java", "--internal", "--continue-on-error", "Hue.java", "Sealed.java"]
      hueFolder).errors =
        ["Error: Lost.java: File not found: Lost.java",
         "Error: Sealed.java: IO error: Permission denied (os error 13)"] ∧
    Json.decodeText (Json.asList Outline.decode)
      (run ["Lost.java", "--internal", "--continue-on-error", "Hue.java", "Sealed.java"]
        hueFolder).output.toList = .ok [.hue] ∧
    ∃ text,
      (run ["-o", "out.json", "Lost.java", "--internal", "--continue-on-error", "Hue.java",
        "Sealed.java"] mutedHue).folder.read? "out.json" = some (.ofText text) ∧
      Json.decodeText (Json.asList Outline.decode) text = .ok [.hue] := by
  have hinline : Pool.inline.KeepsOrder := fun _ _ _ => rfl
  refine ⟨?_, ?_, ?_, ?_, ?_, ?_⟩
  · apply (run_outcome (r := { files := ["Hue.java"], flags := [.internalItems] }) rfl
      hueFolder hinline).1.mpr
    refine ⟨{}, (Request.stored_hue rfl).1, rfl, ?_, rfl⟩
    exact List.forall_mem_singleton.mpr ⟨.hue, condenseFile_hue rfl⟩
  · intro hstatus
    obtain ⟨s, -, -, -, hwritable⟩ := (run_outcome
      (r := { files := ["Hue.java"], flags := [.internalItems] }) rfl
      mutedHue Pool.pair_keepsOrder).1.mp hstatus
    cases hwritable
  · exact ((run_outcome (r := { files := ["Hue.java"], settingsFile := some "Lost.json" }) rfl
      hueFolder hinline).2.1 _ rfl).output
  · refine ((run_outcome
      (r := { files := ["Hue.java"], workers := some 3, output := some "out.json" }) rfl
      mutedHue Pool.pair_keepsOrder).2.2.1 {} (Request.stored_hue rfl).2 ?_).folder
    nofun
  · refine ((run_outcome (r := { files := ["Hue.java", "Sealed.java"], output := some "out.json" })
      rfl hueFolder hinline).2.2.2.1 {} (Request.stored_hue rfl).1 rfl (by simp) ?_).folder
    exact ⟨"Sealed.java", by simp, _, condenseFile_sealed _⟩
  · have hreadable : ∀ o ∈ [Outline.hue], o.Indexed ∧ o.encode.depth < Json.depthLimit := by
      decide +kernel
    have hprint : parse ["Lost.java", "--internal", "--continue-on-error", "Hue.java",
        "Sealed.java"] = .condense
          { files := ["Lost.java", "Hue.java", "Sealed.java"]
            flags := [.internalItems, .keepGoing] } := rfl
    have hprinted := (run_outcome hprint hueFolder hinline).2.2.2.2 {}
      (Request.stored_hue rfl).1 (.inr (by simp)) rfl
    have hwrite : parse ["-o", "out.json", "Lost.java", "--internal", "--continue-on-error",
        "Hue.java", "Sealed.java"] = .condense
          { files := ["Lost.java", "Hue.java", "Sealed.java"]
            flags := [.internalItems, .keepGoing]
            output := some "out.json" } := rfl
    have hwritten := (run_outcome hwrite mutedHue Pool.pair_keepsOrder).2.2.2.2 {}
      (Request.stored_hue rfl).2 (.inr (by simp)) rfl
    refine ⟨(hprinted.status rfl).mpr ⟨"Lost.java", by simp, _, condenseFile_lost _⟩, ?_, ?_, ?_⟩
    · exact (hprinted.lines rfl).trans (Request.results_hue rfl rfl).2
    · rw [((hprinted.placed rfl).printed rfl).1, String.toList_ofList]
      have hdecoded := hprinted.content.decoded
      rw [(Request.results_hue rfl rfl).1] at hdecoded
      exact hdecoded hreadable
    · have hdecoded := hwritten.content.decoded
      rw [mutedHue, (Request.results_hue rfl rfl).1] at hdecoded
      have hplaced := hwritten.placed ⟨["out.json"], rfl, rfl⟩
      exact ⟨_, (hplaced.written _ rfl).2.read, hdecoded hreadable⟩

end Precis.CommandLine
