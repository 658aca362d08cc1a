namespace Ember

/-- A place inside a text: rows and columns count from 1, the offset counts bytes from 0. -/
structure Position where
  row : Nat
  column : Nat
  offset : Nat
  deriving DecidableEq, Repr

/-- The start of every text. -/
def Position.start : Position := ⟨1, 1, 0⟩

/-- Where a lexeme starts. Hand-made trees may carry any numbers. -/
structure Location where
  file : String
  row : Int
  column : Int
  offset : Int
  deriving DecidableEq, Repr

/-- A position, in a named file. -/
def Position.inFile (p : Position) (file : String) : Location :=
  ⟨file, p.row, p.column, p.offset⟩

namespace Location

/-- The location of what was never placed. -/
def none : Location := ⟨"", 0, 0, 0⟩

/-- A location counts as unset when it names no file, row and column. -/
def isUnset (l : Location) : Bool := l.row == 0 && l.column == 0 && l.file == ""

def render (l : Location) : String :=
  l.file ++ ":" ++ toString l.row ++ ":" ++ toString l.column

end Location

end Ember
