import Precis.Node
import Precis.ParseTree
import Precis.Text.Blank
import Precis.Text.Lines

/-!
# Reports of faults in a parse tree

Every missing node is reported as a warning. A faulty node is reported as an error that quotes the
beginning of its text, and nothing below it is reported any more.
-/

namespace Precis

open Text

/-- The greatest number of bytes of source that a report quotes. -/
def excerptLimit : Nat := 80

/-- The first line of a text; longer lines are cut at the last character boundary within the
limit and end in three dots. -/
def excerpt (cs : List Char) : List Char :=
  let line := (lines (trim cs)).headD []
  if byteLength line ≤ excerptLimit then line
  else (takeBytes? (boundaryBefore line excerptLimit) line).getD [] ++ ['.', '.', '.']

namespace ParseTree

/-- The report of a missing node. -/
def missingReport (source : List Char) (t : ParseTree) : Problem where
  message := "Missing syntax element: " ++ t.kind
  severity := .warning
  code := some "missing"
  location := t.location source

/-- The report of a faulty node. -/
def faultReport (source : List Char) (t : ParseTree) : Problem where
  message := "Syntax error near `" ++ String.ofList (excerpt (t.text source)) ++ "`"
  severity := .error
  code := some "syntax"
  location := t.location source

mutual

/-- The reports of a tree, each node before its children. -/
def reports (source : List Char) : ParseTree → List Problem
  | ⟨kind, role, named, missing, faulty, start, stop, children⟩ =>
    let t : ParseTree := ⟨kind, role, named, missing, faulty, start, stop, children⟩
    if missing then t.missingReport source :: reportsAll source children
    else if faulty then [t.faultReport source]
    else reportsAll source children

/-- The reports of a row of trees. -/
def reportsAll (source : List Char) : List ParseTree → List Problem
  | [] => []
  | t :: ts => t.reports source ++ reportsAll source ts

end

end ParseTree

end Precis
