import Ember.Location
import Ember.Text.Template

namespace Ember

/-- The kinds of diagnostics. `other` stands for numbers that no part of the language uses. -/
inductive Code where
  | unexpectedCharacter | unknownSymbol | unterminatedComment
  | expectedSymbol | invalidExpression | expectedExpression
  | invalidIdentifier | expectedIdentifier | invalidType | expectedType
  | expectedSymbolAtEnd | nestingTooDeep | integerOutOfRange
  | undefinedVariable | invalidAssignTarget | arityMismatch | notCallable
  | divisionByZero | invalidOperand | callStackOverflow
  | unsupportedConstruct | unresolvedReference | loweringArity | loweringNotCallable
  | other (number : Int)
  deriving DecidableEq, Repr

namespace Code

def number : Code → Int
  | unexpectedCharacter => 101
  | unknownSymbol => 102
  | unterminatedComment => 103
  | expectedSymbol => 201
  | invalidExpression => 202
  | expectedExpression => 203
  | invalidIdentifier => 204
  | expectedIdentifier => 205
  | invalidType => 206
  | expectedType => 207
  | expectedSymbolAtEnd => 208
  | nestingTooDeep => 209
  | integerOutOfRange => 210
  | undefinedVariable => 301
  | invalidAssignTarget => 302
  | arityMismatch => 303
  | notCallable => 304
  | divisionByZero => 305
  | invalidOperand => 306
  | callStackOverflow => 307
  | unsupportedConstruct => 401
  | unresolvedReference => 402
  | loweringArity => 403
  | loweringNotCallable => 404
  | other n => n

/-- Every code with a message of its own. -/
def all : List Code :=
  [unexpectedCharacter, unknownSymbol, unterminatedComment, expectedSymbol, invalidExpression,
    expectedExpression, invalidIdentifier, expectedIdentifier, invalidType, expectedType,
    expectedSymbolAtEnd, nestingTooDeep, integerOutOfRange, undefinedVariable,
    invalidAssignTarget, arityMismatch, notCallable, divisionByZero, invalidOperand,
    callStackOverflow, unsupportedConstruct, unresolvedReference, loweringArity,
    loweringNotCallable]

/-- The code with the given number. -/
def ofNumber (n : Int) : Code := (all.find? (·.number == n)).getD (other n)

/-- The message of a code; names in braces are filled from a diagnostic's arguments. -/
def template : Code → String
  | unexpectedCharacter => "Unexpected character '\x7bchar\x7d'"
  | unknownSymbol => "Unknown symbol '\x7bchar\x7d'"
  | unterminatedComment => "Unterminated multiline comment"
  | expectedSymbol => "'\x7bsymbol\x7d' expected"
  | invalidExpression => "Invalid expression term '\x7bvalue\x7d'"
  | expectedExpression => "Expected expression"
  | invalidIdentifier => "Invalid identifier '\x7bvalue\x7d'"
  | expectedIdentifier => "Expected identifier"
  | invalidType => "Invalid type '\x7bvalue\x7d'"
  | expectedType => "Type expected"
  | expectedSymbolAtEnd => "'\x7bsymbol\x7d' expected at end of file"
  | nestingTooDeep => "Expression too deeply nested"
  | integerOutOfRange => "Integer literal '\x7bvalue\x7d' out of range"
  | undefinedVariable => "Undefined variable '\x7bname\x7d'"
  | invalidAssignTarget => "Invalid assignment target"
  | arityMismatch | loweringArity =>
    "'\x7bname\x7d' expects \x7bexpected\x7d argument(s), got \x7bactual\x7d"
  | notCallable | loweringNotCallable => "'\x7bvalue\x7d' is not callable"
  | divisionByZero => "Division by zero"
  | invalidOperand => "Invalid operand for '\x7boperator\x7d'"
  | callStackOverflow => "Call stack overflow"
  | unsupportedConstruct => "Unsupported construct '\x7bvalue\x7d'"
  | unresolvedReference => "Unresolved reference '\x7bname\x7d'"
  | other n => "error " ++ toString n

/-- The stage of processing that the hundreds of a number stand for. -/
def phaseOfNumber (n : Int) : String :=
  match n.tdiv 100 with
  | 1 => "Lexical"
  | 2 => "Syntax"
  | 3 => "Runtime"
  | 4 => "Codegen"
  | _ => "Internal"

def phase (c : Code) : String := phaseOfNumber c.number

/-- The code says that the input ended early, so that more input may mend it. -/
def isIncomplete : Code → Bool
  | unterminatedComment | expectedExpression | expectedIdentifier | expectedType
  | expectedSymbolAtEnd => true
  | _ => false

end Code

/-- A value shown in a message. -/
inductive Argument where
  | text (value : String)
  | number (value : Int)
  | flag (value : Bool)
  deriving DecidableEq, Repr

def Argument.render : Argument → String
  | text s => s
  | number n => toString n
  | flag true => "true"
  | flag false => "false"

/-- A problem in a program, at a place. -/
structure Diagnostic where
  code : Code
  loc : Location
  args : List (String × Argument)
  deriving DecidableEq, Repr

namespace Diagnostic

def message (d : Diagnostic) : String :=
  match d.code with
  | .other _ => d.code.template
  | _ => Text.fill d.code.template (d.args.map fun (name, value) => (name, value.render))

/-- Phase and number, which begin the text of a diagnostic. -/
def heading (d : Diagnostic) : String :=
  d.code.phase ++ " error " ++ toString d.code.number ++ ":"

/-- The diagnostic as one line. -/
def render (d : Diagnostic) : String :=
  let text := d.heading ++ " " ++ d.message
  if d.loc.isUnset then text else "[" ++ d.loc.render ++ "] " ++ text

def isIncomplete (d : Diagnostic) : Bool := d.code.isIncomplete

end Diagnostic

end Ember
