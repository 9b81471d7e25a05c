import Precis.Json.Decode
import Precis.Json.Value
import Precis.Selection

/-!
# Settings

The settings of a run, as they are stored in a settings file. Every setting has a usual value that
stands in for it when it is not mentioned.
-/

namespace Precis

open Json

namespace Selection

def encode (s : Selection) : Value :=
  .obj [("include_implementation", .bool s.bodies), ("include_private", .bool s.privateItems),
    ("include_protected", .bool s.protectedItems), ("include_internal", .bool s.internalItems),
    ("include_comments", .bool s.comments), ("include_docstrings", .bool s.docs),
    ("include_imports", .bool s.imports), ("include_fields", .bool s.fields),
    ("include_methods", .bool s.functions), ("include_annotations", .bool s.decorators)]

def record (depth : Nat) : Record Selection :=
  (Record.pure Selection.mk)
    |>.defaulted "include_implementation" signatures.bodies (asFlag depth)
    |>.defaulted "include_private" signatures.privateItems (asFlag depth)
    |>.defaulted "include_protected" signatures.protectedItems (asFlag depth)
    |>.defaulted "include_internal" signatures.internalItems (asFlag depth)
    |>.defaulted "include_comments" signatures.comments (asFlag depth)
    |>.defaulted "include_docstrings" signatures.docs (asFlag depth)
    |>.defaulted "include_imports" signatures.imports (asFlag depth)
    |>.defaulted "include_fields" signatures.fields (asFlag depth)
    |>.defaulted "include_methods" signatures.functions (asFlag depth)
    |>.defaulted "include_annotations" signatures.decorators (asFlag depth)

def decode : Decoder Selection := Record.decoder record

end Selection

/-- The settings of a run. -/
structure Settings where
  selection : Selection := {}
  /-- The number of files to be worked on at once; zero leaves the choice open. -/
  workers : Nat := 0
  /-- Whether to go on after a file that fails. -/
  keepGoing : Bool := false
deriving DecidableEq

namespace Settings

def encode (s : Settings) : Value :=
  .obj [("strip", s.selection.encode), ("workers", .num s.workers),
    ("continue_on_error", .bool s.keepGoing)]

def record (depth : Nat) : Record Settings :=
  (Record.pure Settings.mk)
    |>.defaulted "strip" {} (Selection.decode depth)
    |>.defaulted "workers" 0 (asIndex depth)
    |>.defaulted "continue_on_error" false (asFlag depth)

def decode : Decoder Settings := Record.decoder record

/-- The settings that a text spells. -/
def ofText (text : List Char) : Except Fault Settings :=
  decodeText decode text

/-- The text of settings, indented. -/
def toText (s : Settings) : List Char :=
  s.encode.indented 0

end Settings

end Precis
