import Ember.Lexeme
import Ember.Location
import Ember.Text.Digit
import Ember.Text.Glyph
import Ember.Text.Letter

namespace Ember

/-- White space: the ASCII blanks, the next-line and no-break spaces, and every separator of
the general categories Zs, Zl and Zp. -/
def Text.isBlank (c : Char) : Bool :=
  c == ' ' || (0x09 ≤ c.toNat && c.toNat ≤ 0x0d) || c.toNat == 0x85 || c.toNat == 0xa0 ||
    c.toNat == 0x1680 || (0x2000 ≤ c.toNat && c.toNat ≤ 0x200a) || c.toNat == 0x2028 ||
    c.toNat == 0x2029 || c.toNat == 0x202f || c.toNat == 0x205f || c.toNat == 0x3000

/-- The sorts of pieces that a source text falls into. -/
inductive Piece.Sort where
  | lexeme (l : Lexeme)
  | blank
  | lineComment
  | blockComment
  /-- A character that starts nothing. -/
  | unexpected
  /-- A character of an operator that the language does not have. -/
  | unknownSymbol
  /-- A block comment that the text ends in. -/
  | openComment
  deriving DecidableEq, Repr

/-- A stretch of source text of one sort. -/
structure Piece where
  sort : Piece.Sort
  text : Source
  deriving DecidableEq, Repr

/-- The place after one more glyph. -/
def Position.step (p : Position) (g : Glyph) : Position :=
  if g.toChar = '\n' then ⟨p.row + 1, 1, p.offset + g.width⟩
  else ⟨p.row, p.column + 1, p.offset + g.width⟩

/-- The place after a stretch of text. -/
def Position.after (p : Position) (text : Source) : Position := text.foldl Position.step p

@[simp] theorem Position.after_nil (p : Position) : p.after [] = p := rfl

theorem Position.after_append (p : Position) (a b : Source) :
    p.after (a ++ b) = (p.after a).after b := List.foldl_append

namespace Piece

def isAsciiDigit (g : Glyph) : Bool := g.toChar.isDigit

def startsName (g : Glyph) : Bool := g.toChar == '_' || Text.isLetter g.toChar

def continuesName (g : Glyph) : Bool := startsName g || Text.isDecimalDigit g.toChar

def isNot (c : Char) (g : Glyph) : Bool := g.toChar != c

/-- The text begins with the character `c`. -/
def begins (c : Char) : Source → Bool
  | [] => false
  | g :: _ => g.toChar == c

/-- Cuts after the end of a block comment, of which the opening is already read and which
stands inside `outer` more open comments. Comments nest. -/
def closing? : (outer : Nat) → Source → Option (Source × Source)
  | outer, a :: b :: rest =>
    if a.toChar = '/' ∧ b.toChar = '*' then
      (closing? (outer + 1) rest).map fun (body, after) => (a :: b :: body, after)
    else if a.toChar = '*' ∧ b.toChar = '/' then
      match outer with
      | 0 => some ([a, b], rest)
      | outer + 1 => (closing? outer rest).map fun (body, after) => (a :: b :: body, after)
    else (closing? outer (b :: rest)).map fun (body, after) => (a :: body, after)
  | _, _ => none

/-- A name is a keyword if it is spelled like one. -/
def word (text : Source) : Lexeme :=
  let name := Source.toString text
  match Keyword.ofSpelling? name with
  | some k => .keyword k
  | none => .identifier name

/-- A character that starts no blank, comment, number or name. A mark takes in a following
`=` where that makes another mark. -/
def ofSymbol (g : Glyph) (rest : Source) : Piece × Source :=
  if g.toChar = '&' ∨ g.toChar = '|' then (⟨.unknownSymbol, [g]⟩, rest)
  else
    match Mark.ofChar? g.toChar with
    | none => (⟨.unexpected, [g]⟩, rest)
    | some m =>
      match m.withEqual?, rest with
      | some longer, e :: rest' =>
        if e.toChar = '=' then (⟨.lexeme (.mark longer), [g, e]⟩, rest')
        else (⟨.lexeme (.mark m), [g]⟩, rest)
      | _, _ => (⟨.lexeme (.mark m), [g]⟩, rest)

/-- The first piece of a text that begins with `g`, and what follows it. -/
def first (g : Glyph) (rest : Source) : Piece × Source :=
  if Text.isBlank g.toChar then (⟨.blank, [g]⟩, rest)
  else if g.toChar = '/' ∧ begins '/' rest then
    (⟨.lineComment, g :: rest.takeWhile (isNot '\n')⟩, rest.dropWhile (isNot '\n'))
  else if g.toChar = '/' ∧ begins '*' rest then
    match closing? 0 rest.tail with
    | some (body, after) => (⟨.blockComment, g :: rest.take 1 ++ body⟩, after)
    | none => (⟨.openComment, g :: rest⟩, [])
  else if isAsciiDigit g then
    let digits := g :: rest.takeWhile isAsciiDigit
    (⟨.lexeme (.integer (Source.toString digits)), digits⟩, rest.dropWhile isAsciiDigit)
  else if startsName g then
    let name := g :: rest.takeWhile continuesName
    (⟨.lexeme (word name), name⟩, rest.dropWhile continuesName)
  else ofSymbol g rest

/-- Cuts a text into pieces while it is not longer than the first argument. -/
def splitWithin : Source → Source → List Piece
  | _ :: room, g :: rest =>
    let (piece, after) := first g rest
    piece :: splitWithin room after
  | _, _ => []

/-- The pieces of a text. They follow each other without a gap. -/
def split (source : Source) : List Piece := splitWithin source source

end Piece

end Ember
