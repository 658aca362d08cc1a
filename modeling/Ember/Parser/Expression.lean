import Ember.Parser.Basic
import Ember.Tree

namespace Ember.Parser

/-- The number that a row of decimal digits stands for. -/
def decimal (digits : String) : Nat :=
  digits.toList.foldl (fun n c => 10 * n + (c.toNat - '0'.toNat)) 0

/-- The literal for a number: a signed word below 2^63, else an unsigned one below 2^64. -/
def integerLiteral? (n : Nat) : Option Literal :=
  if n < 9223372036854775808 then some (.int (Int64.ofNat n))
  else if n < 18446744073709551616 then some (.uint (UInt64.ofNat n))
  else none

/-- The operator that the lexeme stands for between two operands. -/
def binaryOp? : Lexeme → Option BinaryOp
  | .mark m => m.binaryOp?
  | _ => none

/-- The operator that the lexeme stands for before an operand. -/
def unaryOp? : Lexeme → Option UnaryOp
  | .mark m => m.unaryOp?
  | _ => none

/-- The assignment that the lexeme stands for. -/
def assignOp? : Lexeme → Option AssignOp
  | .mark m => m.assignOp?
  | _ => none

/-- A name, a literal, or an expression in parentheses. -/
def primary (expression : Parser Expr) : Parser Expr := do
  let t ← current
  match t.lexeme with
  | .identifier name =>
    advance
    return .var (← enter name .empty) t.loc
  | .keyword .trueKw =>
    advance
    return .literal (.bool true) t.loc
  | .keyword .falseKw =>
    advance
    return .literal (.bool false) t.loc
  | .integer digits =>
    match integerLiteral? (decimal digits) with
    | some value =>
      advance
      return .literal value t.loc
    | none => fail .integerOutOfRange t.loc [("value", .text digits)]
  | .mark .parenOpen =>
    advance
    let inner ← expression
    let _ ← expect (.mark .parenClose)
    return .group inner t.loc
  | .endOfFile => fail .expectedExpression t.loc []
  | l => fail .invalidExpression t.loc [("value", .text l.spelling)]

/-- The arguments of a call, after its opening parenthesis. -/
def arguments (expression : Parser Expr) : Parser (List Expr) := do
  let args ←
    if (← current).lexeme = .mark .parenClose then pure []
    else commaSeparated expression
  let _ ← expect (.mark .parenClose)
  return args

/-- A primary expression and the calls applied to it. -/
def call (expression : Parser Expr) : Parser Expr := do
  let first ← primary expression
  iterate (fun callee => do
    if ← accept (.mark .parenOpen) then
      return some (.call callee (← arguments expression) callee.loc)
    else return none) first

/-- Operands joined from the left by operators of one precedence. -/
def leftAssociative (precedence : Nat) (operand : Parser Expr) : Parser Expr := do
  let first ← operand
  iterate (fun left => do
    let t ← current
    match binaryOp? t.lexeme with
    | some op =>
      if op.precedence = precedence then
        advance
        return some (.binary op left (← operand) t.loc)
      else return none
    | none => return none) first

/-- Operands joined by operators, of which those of higher precedence bind first. -/
def binary (operand : Parser Expr) : Parser Expr :=
  leftAssociative 1 (leftAssociative 2 (leftAssociative 3 (leftAssociative 4 operand)))

/-- The value that an assignment stores: a compound one combines the target with it. -/
def assigned (op : AssignOp) (target value : Expr) (loc : Location) : Expr :=
  match op with
  | .plain => value
  | .compound op => .binary op target value loc

/-- Assignments, which group from the right, at most one for each element of the second
argument. -/
def assignmentWithin (operand : Parser Expr) : List Token → Parser Expr
  | [] => binary operand
  | _ :: room => do
    let target ← binary operand
    let t ← current
    match assignOp? t.lexeme with
    | none => return target
    | some op =>
      advance
      let value ← assignmentWithin operand room
      return .assign target (assigned op target value t.loc) target.loc

/-- An expression over the given operands. -/
def expressionOver (operand : Parser Expr) : Parser Expr := do
  assignmentWithin operand (← get).ahead

/-- An operand with the operators before it, at most `room` levels deep. -/
def unary : (room : Nat) → Parser Expr
  | 0 => do fail .nestingTooDeep (← current).loc []
  | room + 1 => do
    let t ← current
    match unaryOp? t.lexeme with
    | some op =>
      advance
      return .unary op (← unary room) t.loc
    | none => call (expressionOver (unary room))

/-- An expression with operands at most `room` levels deep. -/
def expression (room : Nat) : Parser Expr := expressionOver (unary room)

end Ember.Parser
