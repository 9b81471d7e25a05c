import Precis.CommandLine
import Precis.ParseTree.Decode

/-!
# The executable

Takes a snapshot of the part of the file system that the arguments mention, carries out the command
on it, and then prints and writes what came of it. A file that cannot be read is sealed in the
snapshot. Whether the outputs take their texts only turns out in the end; if they do not, what comes
of the command is what comes of it on a system that refuses them.

The parse tree of a source file is expected beside it, in a file with the same name and the ending
`.tree.json`.
-/

namespace Precis.Main

open CommandLine

/-- The wording of an error of the file system. -/
def reason : IO.Error → String
  | .permissionDenied _ code details | .inappropriateType _ code details
  | .resourceExhausted _ code details | .noFileOrDirectory _ code details
  | .invalidArgument _ code details | .noSuchThing _ code details
  | .resourceBusy code details | .resourceVanished code details
  | .hardwareFault code details | .otherError code details =>
    details ++ " (os error " ++ toString code ++ ")"
  | error => toString error

/-- The content of a file that exists. -/
def readSource (path : String) : IO Source := do
  let bytes ← IO.FS.readBinFile path
  let beside := (← IO.currentDir) / (path ++ ".tree.json")
  let tree ←
    if ← beside.pathExists then
      pure (ParseTree.ofText? (Text.decodeLossy (← IO.FS.readBinFile beside).toList))
    else pure none
  return ⟨bytes.toList, tree⟩

/-- Adds to a snapshot what stands at a path. -/
def look (folder : Folder) (path : String) : IO Folder := do
  let place := (Folder.names path).foldl Folder.step (folder.origin path)
  let file := (← IO.currentDir) / path
  if ← file.isDir then
    return { folder with directories := place :: folder.directories }
  else if ← file.pathExists then
    match ← (readSource path).toBaseIO with
    | .ok source => return folder.put place source
    | .error error =>
      return { folder.put place (.ofText []) with seals := (place, reason error) :: folder.seals }
  else return folder

/-- A path and all paths on the way to it. -/
def stations (path : String) : List String :=
  let names := Folder.names path
  (List.range names.length).map fun i => "/".intercalate (names.take (i + 1))

/-- The paths at which a request looks: its files, its settings, its output, and the way to each. -/
def mentioned (r : Request) : List String :=
  let paths := r.files ++ r.settingsFile.toList ++ [Settings.fileName] ++ r.output.toList
  (paths.flatMap stations).filter (· != "")

/-- The system as a command finds it, with nothing in it if the working directory is lost. -/
def snapshot (c : Command) : IO System := do
  match ← IO.currentDir.toBaseIO with
  | .error error => return { folder := {}, lost := some (reason error) }
  | .ok directory =>
    let folder : Folder := { here := (Folder.names directory.toString).filter (· != "") }
    match c with
    | .condense request => return { folder := ← (mentioned request).foldlM look folder }
    | .version | .help | .misuse => return { folder := folder }

/-- The file that a command writes, if it comes to that. -/
def written? (c : Command) (system : System) : Option String := do
  match c with
  | .condense request =>
    let path ← request.output
    let _ ← (request.report system).toOption
    let _ ← (system.folder.target path).toOption
    return path
  | .version | .help | .misuse => none

/-- Prints and writes what came of a command. -/
def perform (c : Command) (system : System) (outcome : Outcome) : IO Unit := do
  let stdout ← IO.getStdout
  stdout.putStr outcome.output
  stdout.flush
  if let some path := written? c system then
    if let some source := outcome.folder.read? path then
      IO.FS.writeBinFile path ⟨source.bytes.toArray⟩

/-- The system with neither a standard output nor an output file that takes a text. -/
def refusing (c : Command) (system : System) (reason : String) : System :=
  let place? := (written? c system).bind fun path => (system.folder.target path).toOption
  { system with
    output := .shut reason
    folder := { system.folder with outlets := place?.toList.map fun place => (place, .shut reason) } }

end Precis.Main

/-- Runs the command on the file system. -/
def main (arguments : List String) : IO UInt32 := do
  let command := Precis.CommandLine.parse arguments
  let system ← Precis.Main.snapshot command
  let outcome := Precis.CommandLine.run arguments system
  outcome.errors.forM fun line => IO.eprintln line
  match ← (Precis.Main.perform command system outcome).toBaseIO with
  | .ok () => return outcome.status.toUInt32
  | .error error =>
    let refused := Precis.Main.refusing command system (Precis.Main.reason error)
    let outcome' := Precis.CommandLine.run arguments refused
    (outcome'.errors.drop outcome.errors.length).forM fun line => IO.eprintln line
    return outcome'.status.toUInt32
