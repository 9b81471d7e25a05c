import Precis.Source

/-!
# Folders

A file system as far as a run can see it: files, directories, and the working directory from which
relative paths start. A path is followed name by name, and every name but the last has to lead to a
directory; `.` stays in a directory, `..` goes back to the one above it, and the root is above
itself.

A file that is there may still be sealed, so that it cannot be read, and not every place takes every
text.
-/

namespace Precis

/-- A place in a file system: the names on the way to it from the root. -/
abbrev Place := List String

/-- Why a path leads nowhere, or cannot be written to. -/
inductive PathFault where
  | missing
  | notDirectory
  | isDirectory
  | tooLong
deriving DecidableEq

/-- The wording of a fault. -/
def PathFault.message : PathFault → String
  | missing => "No such file or directory (os error 2)"
  | notDirectory => "Not a directory (os error 20)"
  | isDirectory => "Is a directory (os error 21)"
  | tooLong => "File name too long (os error 36)"

/-! ## Outlets -/

/-- What a text is written to. -/
inductive Outlet where
  /-- Any text goes through. -/
  | free
  /-- Only so many characters go through, and a longer text is cut short. -/
  | tight (room : Nat) (reason : String)
  /-- Nothing can even be begun. -/
  | shut (reason : String)

namespace Outlet

/-- What goes through of a text. -/
def passed (text : List Char) : Outlet → List Char
  | free => text
  | tight room _ => text.take room
  | shut _ => []

/-- Why a text does not go through as a whole. -/
def refusal? (text : List Char) : Outlet → Option String
  | free => none
  | tight room reason => if text.length ≤ room then none else some reason
  | shut reason => some reason

end Outlet

/-! ## File systems -/

/-- A file system with a working directory. -/
structure Folder where
  /-- The working directory. -/
  here : Place := []
  files : List (Place × Source) := []
  /-- Directories that need not have a file in them. -/
  directories : List Place := []
  /-- Why the files at some places cannot be read. -/
  seals : List (Place × String) := []
  /-- The places that do not take every text. -/
  outlets : List (Place × Outlet) := []

namespace Folder

/-! ## Paths -/

/-- The names of a path, and empty names where slashes follow each other or stand at an end. -/
def names (path : String) : List String :=
  (path.toList.splitOnP (· == '/')).map String.ofList

/-- The greatest number of bytes in a name. -/
def nameLimit : Nat := 255

/-- The greatest number of bytes in a path. -/
def pathLimit : Nat := 4095

/-- Where following a path starts. -/
def origin (f : Folder) (path : String) : Place :=
  if path.toList.head? = some '/' then [] else f.here

/-- The place that a name leads to from a directory. -/
def step (place : Place) (name : String) : Place :=
  if name = "" ∨ name = "." then place
  else if name = ".." then place.dropLast
  else place ++ [name]

/-- A name below a directory, as one path. -/
def join (directory name : String) : String :=
  if directory = "" ∨ directory.toList.getLast? = some '/' then directory ++ name
  else directory ++ "/" ++ name

/-- The path of a place. -/
def pathOf (place : Place) : String :=
  "/" ++ "/".intercalate place

/-! ## What stands at a place -/

/-- The file at a place. -/
def fileAt? (f : Folder) (place : Place) : Option Source :=
  f.files.lookup place

/-- Why the file at a place cannot be read. -/
def sealAt? (f : Folder) (place : Place) : Option String :=
  f.seals.lookup place

/-- What a text for the file at a place is written to. -/
def outletAt (f : Folder) (place : Place) : Outlet :=
  (f.outlets.lookup place).getD .free

/-- Whether a place is a directory: files, the working directory and other directories need all
the directories above them. -/
def isDirectory (f : Folder) (place : Place) : Bool :=
  place.isPrefixOf f.here ||
  f.directories.any (fun directory => place.isPrefixOf directory) ||
  f.files.any fun file => place.isPrefixOf file.1 && place != file.1

/-- Follows a name from a place, which has to be a directory. -/
def follow (f : Folder) (place : Place) (name : String) : Except PathFault Place :=
  if f.isDirectory place then
    if nameLimit < name.utf8ByteSize then .error .tooLong else .ok (step place name)
  else if (f.fileAt? place).isSome then .error .notDirectory
  else .error .missing

/-- The place that a path leads to; nothing needs to stand there, unless the path ends in a
slash. -/
def resolve (f : Folder) (path : String) : Except PathFault Place :=
  if path = "" then .error .missing
  else if pathLimit < path.utf8ByteSize then .error .tooLong
  else (names path).foldlM f.follow (f.origin path)

/-- The file that a path leads to, as it is stored, even if it is sealed. -/
def read? (f : Folder) (path : String) : Option Source :=
  match f.resolve path with
  | .ok place => f.fileAt? place
  | .error _ => none

/-! ## Changes -/

/-- The folder with a file at a place, instead of any other file there. -/
def put (f : Folder) (place : Place) (source : Source) : Folder :=
  { f with files := (place, source) :: f.files.filter fun file => file.1 != place }

/-- The folder with a file at a path, and all directories that it needs. -/
def plant (f : Folder) (path : String) (source : Source) : Folder :=
  f.put ((names path).foldl step (f.origin path)) source

/-- The place of the file that a path names for writing. Such a path must not end in a slash, before
which the last name is not even looked up, and must not lead to a directory. -/
def target (f : Folder) (path : String) : Except PathFault Place :=
  let trimmed := ((names path).reverse.dropWhile (· == "")).reverse
  let slashed : Bool := trimmed.length < (names path).length
  if pathLimit < path.utf8ByteSize then .error .tooLong
  else
    match trimmed.getLast? with
    | none => .error (if path = "" then .missing else .isDirectory)
    | some last => do
      let parent ← trimmed.dropLast.foldlM f.follow (f.origin path)
      let place ← f.follow parent (if slashed then "." else last)
      if slashed ∨ last = "." ∨ last = ".." ∨ f.isDirectory place then .error .isDirectory
      else .ok place

/-- Writes a text to the file that a path names: the folder afterwards, and why not all of the text
is there. A file that can be opened is emptied first. -/
def write (f : Folder) (path : String) (text : List Char) : Folder × Option String :=
  match f.target path with
  | .error fault => (f, some fault.message)
  | .ok place =>
    match f.outletAt place with
    | .shut reason => (f, some reason)
    | outlet => (f.put place (.ofText (outlet.passed text)), outlet.refusal? text)

end Folder

end Precis
