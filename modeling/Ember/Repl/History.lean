import Ember.Repl

namespace Ember.Repl

/-- The most bytes of a line that are read at once. -/
def lineBuffer : Nat := 4096

/-- A line without the carriage return at its end. -/
def withoutReturn (line : List UInt8) : List UInt8 :=
  if line.getLast? = some 0x0d then line.dropLast else line

/-- The lines of a text, the pending one given. A line too long for the buffer comes in
pieces; a carriage return at the end of a full buffer waits for what follows it. -/
def linesFrom (pending : List UInt8) : List UInt8 → List (List UInt8)
  | [] => if pending.isEmpty then [] else [pending]
  | b :: rest =>
    if b = 0x0a then withoutReturn pending :: linesFrom [] rest
    else
      let line := pending ++ [b]
      if line.length < lineBuffer then linesFrom line rest
      else if b = 0x0d then pending :: linesFrom [b] rest
      else line :: linesFrom [] rest

/-- The inputs that standard input gives. -/
def inputsOf (stdin : List UInt8) : List Input :=
  (linesFrom [] stdin).map fun line => .line (Source.ofBytes line)

/-- Inputs of earlier sessions, the oldest first. -/
abbrev History := List Source

namespace History

/-- The most inputs that are kept. -/
def limit : Nat := 1000

/-- Drops the oldest input past the limit. -/
def capped (h : History) : History := if h.length > limit then h.drop 1 else h

/-- Adds an input unless it is the same as the last one. -/
def add (h : History) (entry : Source) : History :=
  if h.getLast? = some entry then h else capped (h ++ [entry])

def newline : Glyph := .char '\n'

/-- Reads the lines of a history. Reading ends at a line that is too long or is no text. -/
def readLines (h : History) : List Source → History
  | [] => h
  | line :: rest =>
    if line.any (· matches .stray _) || lineBuffer ≤ Source.width line then h
    else
      let entry := if line.getLast? = some (.char '\r') then line.dropLast else line
      readLines (capped (h ++ [entry])) rest

/-- The lines of a text without the newlines that end them. -/
def splitLines (pending : Source) : Source → List Source
  | [] => if pending.isEmpty then [] else [pending]
  | g :: rest => if g = newline then pending :: splitLines [] rest else splitLines (pending ++ [g]) rest

/-- The history that a file holds. -/
def ofFile (content : Source) : History := readLines [] (splitLines [] content)

/-- The file that holds the history, one input a line. -/
def toFile (h : History) : Source := h.flatMap (· ++ [newline])

end History

end Ember.Repl
