import Precis.Text.Blank
import Precis.Text.Cut
import Precis.Text.Lines
import Precis.Text.Utf8

/-!
# Python docstrings

The text of a docstring is the body of its string literal without the indentation that all lines
after the first share. Indentation is measured in bytes.
-/

namespace Precis.Python

open Text

/-- A letter that may stand before the opening quote of a string. -/
def isStringMark (c : Char) : Bool :=
  c == 'r' || c == 'R' || c == 'u' || c == 'U' || c == 'b' || c == 'B'

/-- The quotes of string literals, longer ones first. -/
def quotes : List (List Char) :=
  [['"', '"', '"'], ['\x27', '\x27', '\x27'], ['"'], ['\x27']]

/-- The body of a string literal; a text that is no literal is its own body. -/
def literalBody (cs : List Char) : List Char :=
  let quoted := cs.dropWhile isStringMark
  (quotes.findSome? fun mark => (dropPrefix? mark quoted).bind (dropSuffix? mark)).getD quoted

/-- The number of bytes of white space that a line starts with. -/
def indentation (line : List Char) : Nat :=
  byteLength (line.takeWhile isBlank)

/-- The least indentation of the lines that are not blank, and zero if there are none. -/
def sharedIndentation (lines : List (List Char)) : Nat :=
  (((lines.filter fun line => !allBlank line).map indentation).min?).getD 0

/-- A line without `n` bytes of indentation; if that is no place between two characters of the
line, all white space in front goes. -/
def dedent (n : Nat) (line : List Char) : List Char :=
  (dropBytes? n line).getD (trimStart line)

/-- The text of a docstring. -/
def cleanDocstring (cs : List Char) : List Char :=
  match lines (literalBody cs) with
  | [] => []
  | first :: rest => trim (joinWith ['\n'] (trim first :: rest.map (dedent (sharedIndentation rest))))

end Precis.Python
