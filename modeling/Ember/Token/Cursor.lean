import Ember.Token

namespace Ember

/-- A reader of one source text that hands out tokens on demand. It reports what it has
passed so far. -/
structure Cursor where
  file : String
  position : Position
  ahead : List Piece
  peeked : Option Token
  report : Report
  deriving DecidableEq, Repr

namespace Cursor

def ofSource (file : String) (source : Source) : Cursor :=
  ⟨file, .start, Piece.split source, none, []⟩

/-- Passes over pieces to the next token. Past the last piece every token is the end of the
file, at the end of the text. -/
def advance (file : String) : Position → List Piece → Report → Token × Cursor
  | p, [], report => (⟨.endOfFile, p.inFile file⟩, ⟨file, p, [], none, report⟩)
  | p, piece :: rest, report =>
    let after := p.after piece.text
    match piece.token? (p.inFile file) with
    | some token => (token, ⟨file, after, rest, none, report⟩)
    | none => advance file after rest (report ++ (piece.diagnostic? (p.inFile file)).toList)

/-- Takes the next token. -/
def next (c : Cursor) : Token × Cursor :=
  match c.peeked with
  | some token => (token, { c with peeked := none })
  | none => advance c.file c.position c.ahead c.report

/-- Shows the next token without taking it. -/
def peek (c : Cursor) : Token × Cursor :=
  match c.peeked with
  | some token => (token, c)
  | none =>
    let (token, c) := advance c.file c.position c.ahead c.report
    (token, { c with peeked := some token })

end Cursor

end Ember
