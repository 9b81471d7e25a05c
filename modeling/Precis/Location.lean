/-!
# Locations

A location is a contiguous range of a source file. Lines count from one, columns and bytes from
zero, and the end of the byte range is exclusive.
-/

namespace Precis

/-- A range of a source file, in lines and columns and in bytes. -/
structure Location where
  startLine : Nat := 0
  startColumn : Nat := 0
  endLine : Nat := 0
  endColumn : Nat := 0
  startByte : Nat := 0
  endByte : Nat := 0
deriving DecidableEq

namespace Location

/-- A location of whole lines: its columns are zero. -/
def ofLines (startByte endByte startLine endLine : Nat) : Location where
  startLine := startLine
  endLine := endLine
  startByte := startByte
  endByte := endByte

/-- The location with other columns. -/
def withColumns (l : Location) (startColumn endColumn : Nat) : Location :=
  { l with startColumn := startColumn, endColumn := endColumn }

/-- Whether a byte offset lies in the location. -/
def contains (l : Location) (offset : Nat) : Bool :=
  l.startByte ≤ offset && offset < l.endByte

/-- Whether a line lies in the location; both ends count. -/
def containsLine (l : Location) (line : Nat) : Bool :=
  l.startLine ≤ line && line ≤ l.endLine

/-- The number of bytes; zero if the location ends before it starts. -/
def length (l : Location) : Nat :=
  l.endByte - l.startByte

/-- Whether the location holds no byte. -/
def isEmpty (l : Location) : Bool :=
  l.endByte ≤ l.startByte

/-- Whether the location ends before it starts, in bytes or in lines. -/
def inverted (l : Location) : Bool :=
  l.endByte < l.startByte || l.endLine < l.startLine

/-- The location from the start of one to the end of another. -/
def upTo (l other : Location) : Location :=
  { l with endLine := other.endLine, endColumn := other.endColumn, endByte := other.endByte }

end Location

end Precis
