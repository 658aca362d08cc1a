import Ember.Parser.Statement

namespace Ember

namespace Parser

/-- How deep statements and expressions may nest. -/
def maxDepth : Nat := 256

/-- A parameter of a function. -/
def param : Parser Param := do
  let loc := (← current).loc
  let type ← datatype
  let (name, _) ← identifier
  return ⟨← enter name type, type, loc⟩

/-- The parameters of a function with the parentheses around them. -/
def params : Parser (List Param) := do
  let _ ← expect (.mark .parenOpen)
  let params ←
    if (← current).lexeme = .mark .parenClose then pure []
    else commaSeparated param
  let _ ← expect (.mark .parenClose)
  return params

/-- A function with a body at most `room` levels deep. Its name takes the result type once
that is read. -/
def function (room : Nat) : Parser Stmt := do
  let loc := (← current).loc
  advance
  let (name, _) ← identifier
  let id ← enter name .empty
  let params ← params
  let _ ← expect (.mark .colon)
  let result ← datatype
  modify fun s => { s with table := s.table.retype id result }
  let (body, bodyLoc) ← block (expression room) (statement room)
  return .function id params result body bodyLoc loc

/-- A function, a variable declaration or a statement, at most `room` levels deep. -/
def declaration (room : Nat) : Parser (List Stmt) := do
  if (← current).lexeme = .keyword .fnKw then return [← function room]
  else entry (expression room) (statement room)

/-- The declarations up to the end of the file. What cannot be read is noted and passed
over, with the closing braces that follow it. -/
def declarations (room : Nat) : Parser (List Stmt) :=
  iterate (fun body => do
    if (← current).lexeme = .endOfFile then return none
    else
      match ← attempt (declaration room) with
      | .ok stmts => return some (body ++ stmts)
      | .error d =>
        record d
        synchronize
        skipBraces
        return some body) []

end Parser

/-- What reading a program gives. The program holds what could be read; the report holds
every problem in the order of the source. -/
structure Parsed where
  program : Program
  table : SymbolTable
  report : Report

/-- Parses a stream of tokens, entering its names into a table. Statements and expressions may
nest `room` levels deep. -/
def TokenStream.parseWithin (room : Nat) (file : String) (stream : TokenStream)
    (table : SymbolTable) : Parsed :=
  match Parser.declarations room ⟨stream.tokens, stream.finish, none, table, []⟩ with
  | .ok body s => ⟨⟨file, body⟩, s.table, Report.sorted (stream.report ++ s.report)⟩
  | .error d s => ⟨⟨file, []⟩, s.table, Report.sorted (stream.report ++ s.report ++ [d])⟩

/-- Parses a stream of tokens within the limit of the language. -/
def TokenStream.parse (file : String) (stream : TokenStream) (table : SymbolTable) : Parsed :=
  stream.parseWithin Parser.maxDepth file table

/-- Parses a source text, entering its names into a table. -/
def Program.parse (file : String) (source : Source) (table : SymbolTable) : Parsed :=
  (TokenStream.ofSource file source).parse file table

end Ember
