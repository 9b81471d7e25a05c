import Precis.Settings
import Precis.System

/-!
# Condensing

A source is condensed by outlining it and pruning the outline. A batch condenses the files at a
list of paths, each on its own, with the workers that the settings ask for; the report of a batch
keeps the order of the paths. Depending on the settings, a file that fails is put down in the report
or fails the batch.
-/

namespace Precis

/-- The outline of a source, not pruned. -/
def Registry.outlineOf (r : Registry) (path : String) (source : Source) :
    Except Failure Outline :=
  (r.outline path source).mapError .outline

/-- What a selection leaves of an outline. -/
def Selection.condense (s : Selection) (o : Outline) : Except Failure Outline :=
  (s.prune o).mapError .breach

/-- What each of several selections leaves of one outline. -/
def Selection.variants (selections : List Selection) (o : Outline) :
    Except Failure (List Outline) :=
  selections.mapM fun s => s.condense o

/-- The condensed outline of a source. -/
def condense (r : Registry) (s : Settings) (path : String) (source : Source) :
    Except Failure Outline := do
  let outline ← r.outlineOf path source
  s.selection.condense outline

/-- The condensed outline of the file at a path. -/
def condenseFile (r : Registry) (s : Settings) (folder : Folder) (path : String) :
    Except Failure Outline := do
  let source ← folder.content path
  condense r s path source

/-! ## Batches -/

/-- What came of a batch. -/
structure Report where
  /-- The condensed outlines, in order. -/
  outlines : List Outline := []
  /-- The paths that failed, in order. -/
  failures : List (String × Failure) := []

namespace Report

/-- Whether no path failed. -/
def isSuccess (r : Report) : Bool :=
  r.failures.isEmpty

/-- The number of paths of the batch. -/
def total (r : Report) : Nat :=
  r.outlines.length + r.failures.length

/-- The report with what came of one more path in front. -/
def cons (path : String) (result : Except Failure Outline) (r : Report) : Report :=
  match result with
  | .ok outline => { r with outlines := outline :: r.outlines }
  | .error failure => { r with failures := (path, failure) :: r.failures }

/-- The report on a list of paths, from what came of each. The first failure fails the whole,
unless failures are to be put down. -/
def collect (keepGoing : Bool) : List (String × Except Failure Outline) → Except Failure Report
  | [] => .ok {}
  | (path, result) :: rest =>
    match result, keepGoing with
    | .error failure, false => .error (.within path failure)
    | _, _ => (collect keepGoing rest).map (cons path result)

end Report

/-- Condenses the files at a list of paths, with the workers that the settings ask for. -/
def condenseFiles (r : Registry) (s : Settings) (system : System) (paths : List String) :
    Except Failure Report :=
  match system.pool.refuses? s.workers with
  | some reason => .error (.badSettings ("worker pool: " ++ reason))
  | none =>
    Report.collect s.keepGoing
      (paths.zip (system.pool.run s.workers (condenseFile r s system.folder) paths))

end Precis
