import Ember.Diagnostic.Report
import Ember.Token.Piece

namespace Ember

/-- A lexeme and where it starts. -/
structure Token where
  lexeme : Lexeme
  loc : Location
  deriving DecidableEq, Repr

/-- What reading a source text gives: the tokens, the place of its end, and the pieces of it
that are no part of the language. -/
structure TokenStream where
  tokens : List Token
  finish : Location
  report : Report
  deriving DecidableEq, Repr

namespace Piece

/-- A piece that is a lexeme is a token. -/
def token? (p : Piece) (loc : Location) : Option Token :=
  match p.sort with
  | .lexeme l => some ⟨l, loc⟩
  | _ => none

/-- What is reported of a piece that is no part of the language. -/
def diagnostic? (p : Piece) (loc : Location) : Option Diagnostic :=
  match p.sort with
  | .unexpected => some ⟨.unexpectedCharacter, loc, [("char", .text (Source.toString p.text))]⟩
  | .unknownSymbol => some ⟨.unknownSymbol, loc, [("char", .text (Source.toString p.text))]⟩
  | .openComment => some ⟨.unterminatedComment, loc, []⟩
  | _ => none

end Piece

/-- The pieces with the places where they start, the first at `p`. -/
def Position.place (p : Position) : List Piece → List (Position × Piece)
  | [] => []
  | piece :: rest => (p, piece) :: Position.place (p.after piece.text) rest

namespace TokenStream

/-- Reads a source text. -/
def ofSource (file : String) (source : Source) : TokenStream :=
  let placed := Position.start.place (Piece.split source)
  { tokens := placed.filterMap fun (p, piece) => piece.token? (p.inFile file)
    finish := (Position.start.after source).inFile file
    report := placed.filterMap fun (p, piece) => piece.diagnostic? (p.inFile file) }

/-- The tokens with the end of the file as the last one. -/
def allTokens (s : TokenStream) : List Token := s.tokens ++ [⟨.endOfFile, s.finish⟩]

/-- The spellings of the tokens, a space between each two. -/
def render (tokens : List Token) : String := " ".intercalate (tokens.map (·.lexeme.spelling))

end TokenStream

end Ember
