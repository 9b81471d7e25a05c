import Precis.Condense
import Precis.Json.Numeral
import Precis.Json.Value
import Precis.Node.Encode
import Precis.Settings.Load
import Precis.Text.Cut

/-!
# The command line

The arguments of the command are read from left to right, up to the first one that decides what the
command does: a request for the version or for help, or a mistake. Arguments that only name files
and set options make a `Request`. A request is carried out on a system, and what comes of it is an
exit status, the texts on the two output streams and the folder afterwards.
-/

namespace Precis.CommandLine

open Text

/-! ## Options -/

/-- The options that are on or off. -/
inductive Flag where
  | privateItems
  | protectedItems
  | internalItems
  | bodies
  | comments
  | noDocs
  | noImports
  | noFields
  | noFunctions
  | noDecorators
  | keepGoing
deriving DecidableEq

namespace Flag

/-- Every flag, in order. -/
def all : List Flag :=
  [privateItems, protectedItems, internalItems, bodies, comments, noDocs, noImports, noFields,
   noFunctions, noDecorators, keepGoing]

/-- The name of a flag on the command line. -/
def name : Flag → String
  | privateItems => "private"
  | protectedItems => "protected"
  | internalItems => "internal"
  | bodies => "implementation"
  | comments => "comments"
  | noDocs => "no-docstrings"
  | noImports => "no-imports"
  | noFields => "no-fields"
  | noFunctions => "no-methods"
  | noDecorators => "no-annotations"
  | keepGoing => "continue-on-error"

/-- The selection that a flag makes of another one. -/
def select (flag : Flag) (s : Selection) : Selection :=
  match flag with
  | privateItems => { s with privateItems := true }
  | protectedItems => { s with protectedItems := true }
  | internalItems => { s with internalItems := true }
  | bodies => { s with bodies := true }
  | comments => { s with comments := true }
  | noDocs => { s with docs := false }
  | noImports => { s with imports := false }
  | noFields => { s with fields := false }
  | noFunctions => { s with functions := false }
  | noDecorators => { s with decorators := false }
  | keepGoing => s

/-- Puts a flag on top of settings. -/
def apply (s : Settings) (flag : Flag) : Settings :=
  { s with
    selection := flag.select s.selection
    keepGoing := s.keepGoing || flag == .keepGoing }

end Flag

/-- The options that take a value. -/
inductive Key where
  | settingsFile
  | workers
  | output
deriving DecidableEq

namespace Key

/-- Every option with a value. -/
def all : List Key := [settingsFile, workers, output]

/-- The name of an option on the command line. -/
def name : Key → String
  | settingsFile => "config"
  | workers => "workers"
  | output => "output"

end Key

/-- What an option on the command line asks for. -/
inductive Choice where
  | flag (flag : Flag)
  | key (key : Key)
  | verbose
  | version
  | help

/-- The option with a long name. -/
def long? (name : List Char) : Option Choice :=
  let name := String.ofList name
  if name = "verbose" then some .verbose
  else if name = "version" then some .version
  else if name = "help" then some .help
  else
    match Flag.all.find? fun flag => flag.name == name with
    | some flag => some (.flag flag)
    | none => (Key.all.find? fun key => key.name == name).map .key

/-- The option with a letter for a name. -/
def short? (letter : Char) : Option Choice :=
  if letter = 'v' then some .verbose
  else if letter = 'V' then some .version
  else if letter = 'h' then some .help
  else if letter = 'o' then some (.key .output)
  else none

/-! ## Requests -/

/-- What the arguments ask for. -/
structure Request where
  files : List String := []
  flags : List Flag := []
  settingsFile : Option String := none
  workers : Option Nat := none
  output : Option String := none
  verbosity : Nat := 0

/-- A number of workers: digits, with a plus sign at most, for a number below 2^64. -/
def count? (cs : List Char) : Option Nat :=
  let digits := (dropPrefix? ['+'] cs).getD cs
  if digits.isEmpty || !digits.all Char.isDigit then none
  else
    let n := Json.ofDigits digits
    if n < Json.indexBound then some n else none

namespace Request

/-- The request with a flag that has not been given before. -/
def setFlag? (r : Request) (flag : Flag) : Option Request :=
  if r.flags.contains flag then none else some { r with flags := r.flags ++ [flag] }

/-- The request with a value for an option that has not been given before. Paths are not empty. -/
def setKey? (r : Request) (key : Key) (value : List Char) : Option Request :=
  match key with
  | .workers =>
    if r.workers.isSome then none else (count? value).map fun n => { r with workers := some n }
  | .settingsFile =>
    if r.settingsFile.isSome || value.isEmpty then none
    else some { r with settingsFile := some (String.ofList value) }
  | .output =>
    if r.output.isSome || value.isEmpty then none
    else some { r with output := some (String.ofList value) }

/-- The request with one more file, whose path is not empty. -/
def addFile? (r : Request) (path : String) : Option Request :=
  if path = "" then none else some { r with files := r.files ++ [path] }

/-- The request with several more files. -/
def addFiles? (r : Request) (paths : List String) : Option Request :=
  paths.foldlM addFile? r

end Request

/-! ## Reading arguments -/

/-- What the command is to do. -/
inductive Command where
  | condense (request : Request)
  | version
  | help
  | misuse

/-- How reading arguments goes on after one of them. -/
inductive Progress where
  /-- The request so far. -/
  | more (r : Request)
  /-- The request so far, for which the next argument is the value of an option. -/
  | owing (r : Request) (key : Key)
  /-- The command is decided. -/
  | done (c : Command)

/-- Goes on with a request, if it is one. -/
def Progress.ofRequest? : Option Request → Progress
  | some r => .more r
  | none => .done .misuse

/-- Reads the argument `--name` or `--name=value`. -/
def readLong (r : Request) (text : List Char) : Progress :=
  let (name, value) :=
    match splitFirst? ['='] text with
    | some (name, value) => (name, some value)
    | none => (text, none)
  match long? name, value with
  | some (.key key), some value => .ofRequest? (r.setKey? key value)
  | some (.key key), none => .owing r key
  | _, some _ => .done .misuse
  | some (.flag flag), none => .ofRequest? (r.setFlag? flag)
  | some .verbose, none => .more { r with verbosity := r.verbosity + 1 }
  | some .version, none => .done .version
  | some .help, none => .done .help
  | none, none => .done .misuse

/-- Reads the letters after a single dash. What follows the letter of an option that takes a value
is the value, behind an equals sign or not. -/
def readShort (r : Request) : List Char → Progress
  | [] => .more r
  | letter :: rest =>
    match short? letter with
    | some .verbose => readShort { r with verbosity := r.verbosity + 1 } rest
    | some .version => .done .version
    | some .help => .done .help
    | some (.flag flag) =>
      match r.setFlag? flag with
      | some r => readShort r rest
      | none => .done .misuse
    | some (.key key) =>
      if rest.isEmpty then .owing r key
      else .ofRequest? (r.setKey? key ((dropPrefix? ['='] rest).getD rest))
    | none => .done .misuse

/-- Reads one argument. A single dash is the name of a file. -/
def readArgument (r : Request) (argument : String) : Progress :=
  match argument.toList with
  | '-' :: '-' :: name => readLong r name
  | '-' :: letter :: rest => readShort r (letter :: rest)
  | _ => .ofRequest? (r.addFile? argument)

/-- Whether an argument can be the value of the option before it. -/
def isValue (argument : String) : Bool :=
  argument == "-" || argument.toList.head? != some '-'

/-- The command of a request: at least one file has to be named. -/
def Command.ofRequest (r : Request) : Command :=
  if r.files.isEmpty then .misuse else .condense r

/-- Reads all arguments. After `--` there are only files. -/
def read (r : Request) : List String → Command
  | [] => .ofRequest r
  | argument :: rest =>
    if argument = "--" then
      match r.addFiles? rest with
      | some r => .ofRequest r
      | none => .misuse
    else
      match readArgument r argument, rest with
      | .more r, rest => read r rest
      | .done c, _ => c
      | .owing _ _, [] => .misuse
      | .owing r key, value :: rest =>
        if isValue value then
          match r.setKey? key value.toList with
          | some r => read r rest
          | none => .misuse
        else .misuse

/-- The command that the arguments ask for. -/
def parse (arguments : List String) : Command :=
  read {} arguments

/-! ## Carrying out a request -/

/-- What stops a request. -/
inductive Stop where
  /-- A failure of the request itself. -/
  | failure (cause : Failure)
  /-- The system refused what was asked of it. -/
  | refused (reason : String)
  /-- The output file could not be written. -/
  | unwritten (path reason : String)

namespace Stop

/-- The full report of what stopped a request. -/
def report : Stop → String
  | failure cause => cause.report
  | refused reason => reason
  | unwritten path reason => "writing " ++ path ++ ": " ++ reason

/-- The line that says what stopped a request. -/
def line (stop : Stop) : String :=
  "Error: " ++ stop.report

end Stop

/-- What comes of a command. -/
structure Outcome where
  status : Nat
  /-- The text on the standard output. -/
  output : String := ""
  /-- The lines on the error stream that say what went wrong or how the command is used. What the
  command logs goes to the same stream, and is not among them. -/
  errors : List String := []
  folder : Folder

/-- What comes of writing a text. -/
structure Emission where
  /-- What went to the standard output. -/
  printed : List Char := []
  folder : Folder
  stop : Option Stop := none

namespace Request

/-- The stored settings that a request starts from. -/
def stored (r : Request) (system : System) : Except Stop Settings :=
  match r.settingsFile, system.lost with
  | some path, _ => (Settings.load system.folder path).mapError .failure
  | none, some reason => .error (.refused reason)
  | none, none =>
    (Settings.discover system.folder (Folder.pathOf system.folder.here)).mapError .failure

/-- The settings of a request: flags and options go on top of the stored ones. -/
def settings (r : Request) (system : System) : Except Stop Settings := do
  let s := r.flags.foldl Flag.apply (← r.stored system)
  return { s with workers := r.workers.getD s.workers }

/-- What a request writes: the outlines of its report, as one indented array. -/
def render (report : Report) : List Char :=
  (Json.Value.arr (report.outlines.map Outline.encode)).indented 0 ++ ['\n']

/-- Writes a text to the place that the request names. -/
def emit (r : Request) (system : System) (text : List Char) : Emission :=
  match r.output with
  | none =>
    { printed := system.output.passed text
      folder := system.folder
      stop := (system.output.refusal? text).map .refused }
  | some path =>
    let (folder, refusal) := system.folder.write path text
    { folder := folder, stop := refusal.map (.unwritten path) }

/-- The line for a file that failed. -/
def failureLine (failure : String × Failure) : String :=
  "Error: " ++ failure.1 ++ ": " ++ failure.2.message

/-- Writes a report, behind a line for each file that failed. -/
def deliver (r : Request) (system : System) (report : Report) : Outcome :=
  let emission := r.emit system (render report)
  { status := if report.isSuccess && emission.stop.isNone then 0 else 1
    output := String.ofList emission.printed
    errors := report.failures.map failureLine ++ emission.stop.toList.map Stop.line
    folder := emission.folder }

/-- The report on the files of a request. -/
def report (r : Request) (system : System) : Except Stop Report := do
  let s ← r.settings system
  (condenseFiles .standard s system r.files).mapError .failure

/-- Carries out a request. -/
def run (r : Request) (system : System) : Outcome :=
  match r.report system with
  | .ok report => r.deliver system report
  | .error stop => { status := 1, errors := [stop.line], folder := system.folder }

end Request

/-! ## The command -/

/-- How much the command logs, by how often it was asked to say more. -/
def logLevel : Nat → String
  | 0 => "warn"
  | 1 => "info"
  | 2 => "debug"
  | _ => "trace"

/-- The name and version of the command. -/
def versionLine : String := "distill 0.1.0\n"

/-- How the command is used. -/
def usageLine : String := "Usage: distill [OPTIONS] <FILES>..."

/-- What the options mean. -/
def helpText : String :=
  usageLine ++ "\n\n" ++
  "  --config FILE         settings file (usually .distiller.json)\n" ++
  "  --private             keep private declarations\n" ++
  "  --protected           keep protected declarations\n" ++
  "  --internal            keep internal and package-private declarations\n" ++
  "  --implementation      keep function bodies and field initializers\n" ++
  "  --comments            keep line and block comments\n" ++
  "  --no-docstrings       drop doc comments and docstrings\n" ++
  "  --no-imports          drop imports\n" ++
  "  --no-fields           drop fields\n" ++
  "  --no-methods          drop functions and methods\n" ++
  "  --no-annotations      drop decorators, annotations and attributes\n" ++
  "  --workers N           worker threads (0 = one per core)\n" ++
  "  --continue-on-error   report failing files and keep going\n" ++
  "  -o, --output FILE     output file (usually the standard output)\n" ++
  "  -v, --verbose         log more; may be repeated\n" ++
  "  -h, --help            print this text\n" ++
  "  -V, --version         print the version\n"

/-- Carries out the command that the arguments ask for. Nobody is told if the version or the help
does not go through. -/
def run (arguments : List String) (system : System) : Outcome :=
  let tell (text : String) : Outcome :=
    { status := 0
      output := String.ofList (system.output.passed text.toList)
      folder := system.folder }
  match parse arguments with
  | .condense request => request.run system
  | .version => tell versionLine
  | .help => tell helpText
  | .misuse => { status := 2, errors := [usageLine], folder := system.folder }

end Precis.CommandLine
