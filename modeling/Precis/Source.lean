import Precis.ParseTree
import Precis.Text.Utf8

/-!
# Sources

A source is the content of a file: its bytes and, if a grammar is known for it, the parse tree of
its text. The text of a source that is not UTF-8 has replacement characters in it.
-/

namespace Precis

/-- The content of a file. -/
structure Source where
  bytes : List UInt8
  tree : Option ParseTree := none

namespace Source

/-- The text of a source. -/
def text (s : Source) : List Char :=
  Text.decodeLossy s.bytes

/-- A source with the given text, and no parse tree. -/
def ofText (cs : List Char) : Source where
  bytes := Text.encode cs

end Source

end Precis
