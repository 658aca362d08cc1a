import Ember.Parser.Expression

namespace Ember.Parser

/-- A name with an optional initial value. -/
def declarator (type : Datatype) (expression : Parser Expr) : Parser Stmt := do
  let (name, loc) ← identifier
  let id ← enter name type
  if ← accept (.mark .assign) then return .var id type (some (← expression)) loc
  else return .var id type none loc

/-- A declaration of one variable or more. -/
def variableDecls (expression : Parser Expr) : Parser (List Stmt) := do
  let type ← datatype
  let vars ← commaSeparated (declarator type expression)
  let _ ← expect (.mark .semicolon)
  return vars

/-- An expression as a statement, without the semicolon. -/
def exprStmt (expression : Parser Expr) : Parser Stmt := do
  let loc := (← current).loc
  return .expr (← expression) loc

/-- A variable declaration or a statement. -/
def entry (expression : Parser Expr) (statement : Parser Stmt) : Parser (List Stmt) := do
  if (← current).lexeme.isType then variableDecls expression
  else return [← statement]

/-- A block and the place of its opening brace. An entry that cannot be read is noted and
passed over. -/
def block (expression : Parser Expr) (statement : Parser Stmt) :
    Parser (List Stmt × Location) := do
  let loc ← expect (.mark .braceOpen)
  let body ← iterate (fun body => do
    let l := (← current).lexeme
    if l = .mark .braceClose ∨ l = .endOfFile then return none
    else
      match ← attempt (entry expression statement) with
      | .ok stmts => return some (body ++ stmts)
      | .error d =>
        record d
        synchronize
        return some body) []
  let _ ← expect (.mark .braceClose)
  return (body, loc)

/-- An expression in parentheses. -/
def condition (expression : Parser Expr) : Parser Expr := do
  let _ ← expect (.mark .parenOpen)
  let cond ← expression
  let _ ← expect (.mark .parenClose)
  return cond

/-- A conditional, from its keyword at `loc`. An `else` belongs to the nearest one. -/
def conditional (expression : Parser Expr) (statement : Parser Stmt) (loc : Location) :
    Parser Stmt := do
  advance
  let cond ← condition expression
  let body ← statement
  if ← accept (.keyword .elseKw) then
    return .conditional cond body (some (← statement)) loc
  else return .conditional cond body none loc

/-- A loop with the test before the body. -/
def whileLoop (expression : Parser Expr) (statement : Parser Stmt) (loc : Location) :
    Parser Stmt := do
  advance
  let cond ← condition expression
  return .loop cond (← statement) loc

/-- A loop with the test after the body is the body, followed by the loop with the test
before it. -/
def doLoop (expression : Parser Expr) (statement : Parser Stmt) (loc : Location) :
    Parser Stmt := do
  advance
  let body ← statement
  let _ ← expect (.keyword .whileKw)
  let cond ← condition expression
  let _ ← expect (.mark .semicolon)
  return .block [body, .loop cond body loc] loc

/-- The first clause of a `for`, with its semicolon. -/
def forInit (expression : Parser Expr) : Parser (List Stmt) := do
  if ← accept (.mark .semicolon) then return []
  else if (← current).lexeme.isType then variableDecls expression
  else
    let init ← exprStmt expression
    let _ ← expect (.mark .semicolon)
    return [init]

/-- The second clause of a `for`, with its semicolon. Without a condition it is `true`. -/
def forCondition (expression : Parser Expr) : Parser Expr := do
  let t ← current
  let cond ←
    if t.lexeme = .mark .semicolon then pure (.literal (.bool true) t.loc)
    else expression
  let _ ← expect (.mark .semicolon)
  return cond

/-- The last clause of a `for`, with the parenthesis after it. -/
def forStep (expression : Parser Expr) : Parser (Option Stmt) := do
  let step ←
    if (← current).lexeme = .mark .parenClose then pure none
    else some <$> exprStmt expression
  let _ ← expect (.mark .parenClose)
  return step

/-- The body of a `for` with its step after it. -/
def withStep (body : Stmt) : Option Stmt → Stmt
  | none => body
  | some step => .block [body, step] body.loc

/-- A `for` is a block of its first clause and a loop that takes the step after its body. -/
def forLoop (expression : Parser Expr) (statement : Parser Stmt) (loc : Location) :
    Parser Stmt := do
  advance
  let _ ← expect (.mark .parenOpen)
  let init ← forInit expression
  let cond ← forCondition expression
  let step ← forStep expression
  let body ← statement
  return .block (init ++ [.loop cond (withStep body step) loc]) loc

/-- A `return` with an optional value. -/
def returning (expression : Parser Expr) (loc : Location) : Parser Stmt := do
  advance
  let value ←
    if (← current).lexeme = .mark .semicolon then pure none
    else some <$> expression
  let _ ← expect (.mark .semicolon)
  return .returning value loc

/-- A statement at most `room` levels deep. -/
def statement : (room : Nat) → Parser Stmt
  | 0 => do fail .nestingTooDeep (← current).loc []
  | room + 1 => do
    let t ← current
    match t.lexeme with
    | .mark .braceOpen =>
      let (body, loc) ← block (expression room) (statement room)
      return .block body loc
    | .keyword .ifKw => conditional (expression room) (statement room) t.loc
    | .keyword .doKw => doLoop (expression room) (statement room) t.loc
    | .keyword .forKw => forLoop (expression room) (statement room) t.loc
    | .keyword .whileKw => whileLoop (expression room) (statement room) t.loc
    | .keyword .returnKw => returning (expression room) t.loc
    | _ =>
      let stmt ← exprStmt (expression room)
      let _ ← expect (.mark .semicolon)
      return stmt

end Ember.Parser
