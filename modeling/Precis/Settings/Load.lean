import Precis.Settings
import Precis.System

/-!
# Settings files

Settings are loaded from a file that is named, or from the usual file of a directory. A named file
has to be there; without the usual file, the usual settings apply. A file that is there has to be
readable in either case.
-/

namespace Precis.Settings

/-- The name of the settings file of a directory. -/
def fileName : String := ".distiller.json"

/-- What is said about a file that is not UTF-8. -/
def notUtf8 : String := "stream did not contain valid UTF-8"

/-- The settings in the content of a file. -/
def ofSource (path : String) (source : Source) : Except Failure Settings :=
  match Text.decode? source.bytes with
  | none => .error (.unreadable notUtf8)
  | some text => (ofText text).mapError fun fault => .within ("loading " ++ path) (.json fault)

/-- The settings in a file. -/
def load (folder : Folder) (path : String) : Except Failure Settings := do
  let source ← folder.content path
  ofSource path source

/-- The settings of a directory. -/
def discover (folder : Folder) (directory : String) : Except Failure Settings :=
  let path := Folder.join directory fileName
  if (folder.read? path).isSome then load folder path else .ok {}

end Precis.Settings
