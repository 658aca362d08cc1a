namespace Ember

/-- The reserved words. -/
inductive Keyword where
  | trueKw | falseKw
  | fnKw | ifKw | elseKw | forKw | whileKw | doKw | returnKw
  | voidKw | boolKw
  | int8Kw | int16Kw | int32Kw | int64Kw
  | uint8Kw | uint16Kw | uint32Kw | uint64Kw
  deriving DecidableEq, Repr

namespace Keyword

def spelling : Keyword → String
  | trueKw => "true"
  | falseKw => "false"
  | fnKw => "fn"
  | ifKw => "if"
  | elseKw => "else"
  | forKw => "for"
  | whileKw => "while"
  | doKw => "do"
  | returnKw => "return"
  | voidKw => "void"
  | boolKw => "bool"
  | int8Kw => "int8"
  | int16Kw => "int16"
  | int32Kw => "int32"
  | int64Kw => "int64"
  | uint8Kw => "uint8"
  | uint16Kw => "uint16"
  | uint32Kw => "uint32"
  | uint64Kw => "uint64"

/-- Every keyword, the type names last. -/
def all : List Keyword :=
  [trueKw, falseKw, fnKw, ifKw, elseKw, forKw, whileKw, doKw, returnKw, voidKw, boolKw,
    int8Kw, int16Kw, int32Kw, int64Kw, uint8Kw, uint16Kw, uint32Kw, uint64Kw]

/-- The keyword spelled `word`. -/
def ofSpelling? (word : String) : Option Keyword :=
  all.find? (·.spelling == word)

end Keyword

/-- The operators and the punctuation. -/
inductive Mark where
  | parenOpen | parenClose | braceOpen | braceClose
  | comma | colon | semicolon
  | assign | equal | bang | notEqual
  | less | lessEqual | greater | greaterEqual
  | plus | plusAssign | minus | minusAssign
  | star | starAssign | slash | slashAssign | percent | percentAssign
  deriving DecidableEq, Repr

namespace Mark

def spelling : Mark → String
  | parenOpen => "("
  | parenClose => ")"
  | braceOpen => "\x7b"
  | braceClose => "\x7d"
  | comma => ","
  | colon => ":"
  | semicolon => ";"
  | assign => "="
  | equal => "=="
  | bang => "!"
  | notEqual => "!="
  | less => "<"
  | lessEqual => "<="
  | greater => ">"
  | greaterEqual => ">="
  | plus => "+"
  | plusAssign => "+="
  | minus => "-"
  | minusAssign => "-="
  | star => "*"
  | starAssign => "*="
  | slash => "/"
  | slashAssign => "/="
  | percent => "%"
  | percentAssign => "%="

/-- Every mark, each followed by its form with `=`. -/
def all : List Mark :=
  [parenOpen, parenClose, braceOpen, braceClose, comma, colon, semicolon, assign, equal, bang,
    notEqual, less, lessEqual, greater, greaterEqual, plus, plusAssign, minus, minusAssign, star,
    starAssign, slash, slashAssign, percent, percentAssign]

/-- The mark that the single character `c` spells. -/
def ofChar? : Char → Option Mark
  | '(' => some parenOpen
  | ')' => some parenClose
  | '\x7b' => some braceOpen
  | '\x7d' => some braceClose
  | ',' => some comma
  | ':' => some colon
  | ';' => some semicolon
  | '=' => some assign
  | '!' => some bang
  | '<' => some less
  | '>' => some greater
  | '+' => some plus
  | '-' => some minus
  | '*' => some star
  | '/' => some slash
  | '%' => some percent
  | _ => none

/-- The mark spelled like this one with `=` after it. -/
def withEqual? : Mark → Option Mark
  | assign => some equal
  | bang => some notEqual
  | less => some lessEqual
  | greater => some greaterEqual
  | plus => some plusAssign
  | minus => some minusAssign
  | star => some starAssign
  | slash => some slashAssign
  | percent => some percentAssign
  | _ => none

end Mark

/-- What a token is, apart from its place. Only identifiers and integers carry their text. -/
inductive Lexeme where
  | endOfFile
  | identifier (name : String)
  | integer (digits : String)
  | keyword (word : Keyword)
  | mark (mark : Mark)
  deriving DecidableEq, Repr

namespace Lexeme

/-- The name of the kind of lexeme. -/
def kindName : Lexeme → String
  | endOfFile => "end of file"
  | identifier _ => "identifier"
  | integer _ => "integer"
  | keyword k => k.spelling
  | mark m => m.spelling

/-- The lexeme as it is written in a source text. -/
def spelling : Lexeme → String
  | identifier name => name
  | integer digits => digits
  | l => l.kindName

/-- The text that tells apart the lexemes of one kind. -/
def text : Lexeme → String
  | identifier name => name
  | integer digits => digits
  | _ => ""

/-- One lexeme of each kind in the order of the kinds' codes, identifiers and integers with
the given text. -/
def catalogue (text : String) : List Lexeme :=
  [endOfFile, identifier text, integer text] ++ Keyword.all.map keyword ++ Mark.all.map mark

/-- The lexeme whose kind has the given code. -/
def ofCode? (code : Int) (text : String) : Option Lexeme :=
  if code < 0 then none else (catalogue text)[code.toNat]?

/-- How a code is shown that belongs to no kind. -/
def unknownCodeName (code : Int) : String := "token(" ++ toString code ++ ")"

end Lexeme

end Ember
