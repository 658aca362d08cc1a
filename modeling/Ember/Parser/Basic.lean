import Ember.SymbolTable
import Ember.Token

namespace Ember

/-- What a parser has before it and what it has noted: the tokens ahead and the end of the
file behind them, the place of the last token taken, the names met, and the problems passed
over. -/
structure Parser.State where
  ahead : List Token
  finish : Location
  last : Option Location
  table : SymbolTable
  report : Report

/-- A parser stops with a diagnostic where it cannot go on; what it has taken and noted until
then stays so. -/
abbrev Parser (α : Type) := EStateM Diagnostic Parser.State α

namespace Parser

variable {α : Type}

/-- The token ahead; past the last one it is the end of the file. -/
def State.current (s : State) : Token :=
  match s.ahead with
  | [] => ⟨.endOfFile, s.finish⟩
  | t :: _ => t

/-- The state after taking the token ahead. -/
def State.advanced (s : State) : State :=
  match s.ahead with
  | [] => s
  | t :: rest => { s with ahead := rest, last := some t.loc }

def current : Parser Token := do return (← get).current

def advance : Parser Unit := modify State.advanced

def fail (code : Code) (loc : Location) (args : List (String × Argument)) : Parser α :=
  throw ⟨code, loc, args⟩

/-- Takes the token ahead if it is `l`. -/
def accept (l : Lexeme) : Parser Bool := do
  if (← current).lexeme = l then
    advance
    return true
  else return false

/-- Takes a token that has to be `l`, and gives its place. Where it is missing, the place of
the last token taken is reported. -/
def expect (l : Lexeme) : Parser Location := do
  let t ← current
  if t.lexeme = l then
    advance
    return t.loc
  else
    let loc := (← get).last.getD t.loc
    let code := if t.lexeme = .endOfFile then .expectedSymbolAtEnd else .expectedSymbol
    fail code loc [("symbol", .text l.spelling)]

/-- Takes an identifier. -/
def identifier : Parser (String × Location) := do
  let t ← current
  match t.lexeme with
  | .identifier name =>
    advance
    return (name, t.loc)
  | .endOfFile => fail .expectedIdentifier t.loc []
  | l => fail .invalidIdentifier t.loc [("value", .text l.spelling)]

/-- Takes the name of a type. -/
def datatype : Parser Datatype := do
  let t ← current
  match t.lexeme.datatype? with
  | some type =>
    advance
    return type
  | none =>
    if t.lexeme = .endOfFile then fail .expectedType t.loc []
    else fail .invalidType t.loc [("value", .text t.lexeme.spelling)]

/-- The id of a name, which is entered into the table if it is new. -/
def enter (name : String) (type : Datatype) : Parser Int := do
  let s ← get
  let (id, table) := s.table.add name type
  set { s with table }
  return id

/-- Gives the outcome of `p` without stopping. -/
def attempt (p : Parser α) : Parser (Except Diagnostic α) := fun s =>
  match p s with
  | .ok a s => .ok (.ok a) s
  | .error d s => .ok (.error d) s

def record (d : Diagnostic) : Parser Unit :=
  modify fun s => { s with report := s.report ++ [d] }

/-- Repeats `step`, at most once for each element of the first argument, until it has nothing
to add. -/
def iterateWithin (step : α → Parser (Option α)) : List Token → α → Parser α
  | [], a => return a
  | _ :: room, a => do
    match ← step a with
    | none => return a
    | some b => iterateWithin step room b

/-- Repeats `step` until it has nothing to add. A step that adds something takes a token, so
that the tokens ahead bound the number of steps. -/
def iterate (step : α → Parser (Option α)) (a : α) : Parser α := do
  iterateWithin step (← get).ahead a

/-- One item or more, with commas between them. -/
def commaSeparated (item : Parser α) : Parser (List α) := do
  let first ← item
  iterate (fun items => do
    if ← accept (.mark .comma) then return some (items ++ [← item])
    else return none) [first]

/-- What is left after the tokens up to the first semicolon, and it too, are dropped, with the
place of the last token dropped. A closing brace ends the search and stays, so that the block
around it can end there. -/
def pastSemicolon (last : Option Location) : List Token → Option Location × List Token
  | [] => (last, [])
  | t :: rest =>
    if t.lexeme = .mark .semicolon then (some t.loc, rest)
    else if t.lexeme = .mark .braceClose then (last, t :: rest)
    else pastSemicolon (some t.loc) rest

/-- What is left after the closing braces ahead are dropped, with the place of the last one. -/
def pastBraces (last : Option Location) : List Token → Option Location × List Token
  | [] => (last, [])
  | t :: rest =>
    if t.lexeme = .mark .braceClose then pastBraces (some t.loc) rest else (last, t :: rest)

/-- Gives up what cannot be read. -/
def synchronize : Parser Unit :=
  modify fun s =>
    let (last, ahead) := pastSemicolon s.last s.ahead
    { s with last, ahead }

/-- Drops the closing braces ahead. -/
def skipBraces : Parser Unit :=
  modify fun s =>
    let (last, ahead) := pastBraces s.last s.ahead
    { s with last, ahead }

end Parser

end Ember
