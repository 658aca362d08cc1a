import Ember.Proofs.Parser.Progress

namespace Ember.Parser

variable {α : Type} {item : Parser α} {operand expr : Parser Expr} {stmt : Parser Stmt}

/-- One more item of a list, if a comma announces it. -/
def commaStep (item : Parser α) (items : List α) : Parser (Option (List α)) := do
  if ← accept (.mark .comma) then return some (items ++ [← item])
  else return none

/-- One more call, if a parenthesis opens it. -/
def callStep (expression : Parser Expr) (callee : Expr) : Parser (Option Expr) := do
  if ← accept (.mark .parenOpen) then
    return some (.call callee (← arguments expression) callee.loc)
  else return none

/-- One more operand, if an operator of the precedence joins it. -/
def chainStep (precedence : Nat) (operand : Parser Expr) (left : Expr) :
    Parser (Option Expr) := do
  let t ← current
  match binaryOp? t.lexeme with
  | some op =>
    if op.precedence = precedence then
      advance
      return some (.binary op left (← operand) t.loc)
    else return none
  | none => return none

/-- What follows the first operand of an expression. -/
def assignmentTail (value : Parser Expr) (target : Expr) : Parser Expr := do
  let t ← current
  match assignOp? t.lexeme with
  | none => return target
  | some op =>
    advance
    let value ← value
    return .assign target (assigned op target value t.loc) target.loc

/-- One more entry of a block, unless the block ends. -/
def entryStep (expression : Parser Expr) (statement : Parser Stmt) (body : List Stmt) :
    Parser (Option (List Stmt)) := do
  let l := (← current).lexeme
  if l = .mark .braceClose ∨ l = .endOfFile then return none
  else
    match ← attempt (entry expression statement) with
    | .ok stmts => return some (body ++ stmts)
    | .error d =>
      record d
      synchronize
      return some body

/-- The end of a block of which the entries are read. -/
def closeBlock (loc : Location) (body : List Stmt) : Parser (List Stmt × Location) := do
  let _ ← expect (.mark .braceClose)
  return (body, loc)

/-- What is left of a block of which some entries are read. -/
def blockTail (expression : Parser Expr) (statement : Parser Stmt) (loc : Location)
    (body : List Stmt) : Parser (List Stmt × Location) :=
  iterate (entryStep expression statement) body >>= closeBlock loc

/-- What is left of a block after a step behind the entries `body`. -/
def blockAfter (expression : Parser Expr) (statement : Parser Stmt) (loc : Location)
    (body : List Stmt) : Option (List Stmt) → Parser (List Stmt × Location)
  | none => closeBlock loc body
  | some body => blockTail expression statement loc body

/-- One more declaration, unless the file ends. -/
def declarationStep (room : Nat) (body : List Stmt) : Parser (Option (List Stmt)) := do
  if (← current).lexeme = .endOfFile then return none
  else
    match ← attempt (declaration room) with
    | .ok stmts => return some (body ++ stmts)
    | .error d =>
      record d
      synchronize
      skipBraces
      return some body

/-- What may be left out before a lexeme, and the lexeme. -/
def closedBy (l : Lexeme) (absent : Location → α) (p : Parser α) : Parser α := do
  let t ← current
  let a ← if t.lexeme = l then pure (absent t.loc) else p
  let _ ← expect l
  return a

theorem commaSeparated_eq (item : Parser α) :
    commaSeparated item = item >>= fun first => iterate (commaStep item) [first] := rfl

theorem call_eq (expression : Parser Expr) :
    call expression = primary expression >>= iterate (callStep expression) := rfl

theorem leftAssociative_eq (precedence : Nat) (operand : Parser Expr) :
    leftAssociative precedence operand = operand >>= iterate (chainStep precedence operand) := rfl

theorem block_eq (expression : Parser Expr) (statement : Parser Stmt) :
    block expression statement = expect (.mark .braceOpen) >>= fun loc =>
      blockTail expression statement loc [] := rfl

theorem arguments_eq (expression : Parser Expr) :
    arguments expression =
      closedBy (.mark .parenClose) (fun _ => []) (commaSeparated expression) := rfl

theorem forCondition_eq (expression : Parser Expr) :
    forCondition expression =
      closedBy (.mark .semicolon) (fun loc => .literal (.bool true) loc) expression := rfl

theorem forStep_eq (expression : Parser Expr) :
    forStep expression =
      closedBy (.mark .parenClose) (fun _ => none) (some <$> exprStmt expression) := rfl

theorem params_eq :
    params = expect (.mark .parenOpen) >>= fun _ =>
      closedBy (.mark .parenClose) (fun _ => []) (commaSeparated param) := rfl

/-- A parameter without its place. -/
def typedName : Parser (Int × Datatype) := do
  let type ← datatype
  let (name, _) ← identifier
  return (← enter name type, type)

theorem param_eq :
    param = current >>= fun t => typedName >>= fun a => pure ⟨a.1, a.2, t.loc⟩ := by
  unfold param typedName
  simp only [bind_assoc, pure_bind]

theorem returning_eq (expression : Parser Expr) (loc : Location) :
    returning expression loc = advance >>= fun _ =>
      closedBy (.mark .semicolon) (fun _ => none) (some <$> expression) >>= fun value =>
        pure (.returning value loc) := by
  unfold returning closedBy
  congr 1
  funext _
  simp only [bind_assoc, pure_bind]
  congr 1
  funext t
  split <;> simp only [bind_assoc, pure_bind]

theorem declarations_eq (room : Nat) :
    declarations room = iterate (declarationStep room) [] := rfl

namespace Orderly

theorem closedBy (l : Lexeme) (absent : Location → α) (h : Orderly item) :
    Orderly (closedBy l absent item) :=
  current.bind fun _ => ite ((pure _).bind fun _ => (expect _).bind fun _ => pure _)
    (h.bind fun _ => (expect _).bind fun _ => pure _)

theorem arguments (h : Orderly expr) : Orderly (arguments expr) :=
  closedBy (.mark .parenClose) (fun _ => []) h.commaSeparated

theorem commaStep (h : Orderly item) (items : List α) : Orderly (commaStep item items) :=
  (accept _).bind fun _ => ite (h.bind fun _ => pure _) (pure _)

theorem callStep (h : Orderly expr) (callee : Expr) :
    Orderly (callStep expr callee) :=
  (accept _).bind fun _ => ite (h.arguments.bind fun _ => pure _) (pure _)

theorem chainStep (precedence : Nat) (h : Orderly operand) (left : Expr) :
    Orderly (chainStep precedence operand left) := by
  refine current.bind fun t => ?_
  split
  · exact ite (advance.bind fun _ => h.bind fun _ => pure _) (pure _)
  · exact pure _

theorem primary (h : Orderly expr) : Orderly (primary expr) := by
  refine current.bind fun t => ?_
  split
  · exact advance.bind fun _ => (enter _ _).bind fun _ => pure _
  · exact advance.bind fun _ => pure _
  · exact advance.bind fun _ => pure _
  · split
    · exact advance.bind fun _ => pure _
    · exact fail _ _ _
  · exact advance.bind fun _ => h.bind fun _ => (expect _).bind fun _ => pure _
  · exact fail _ _ _
  · exact fail _ _ _

theorem call (h : Orderly expr) : Orderly (call expr) :=
  h.primary.bind fun first => iterate h.callStep first

theorem leftAssociative (precedence : Nat) (h : Orderly operand) :
    Orderly (leftAssociative precedence operand) :=
  h.bind fun first => iterate (chainStep precedence h) first

theorem binary (h : Orderly operand) : Orderly (binary operand) :=
  leftAssociative 1 (leftAssociative 2 (leftAssociative 3 (leftAssociative 4 h)))

theorem assignmentTail (h : Orderly expr) (target : Expr) :
    Orderly (assignmentTail expr target) := by
  refine current.bind fun t => ?_
  split
  · exact pure _
  · exact advance.bind fun _ => h.bind fun _ => pure _

theorem assignmentWithin (h : Orderly operand) :
    ∀ room : List Token, Orderly (assignmentWithin operand room)
  | [] => binary h
  | _ :: room => (binary h).bind (assignmentWithin h room).assignmentTail

theorem expressionOver (h : Orderly operand) : Orderly (expressionOver operand) :=
  get.bind fun s => assignmentWithin h s.ahead

theorem unary : ∀ room : Nat, Orderly (unary room)
  | 0 => current.bind fun _ => fail _ _ _
  | room + 1 => by
    refine current.bind fun t => ?_
    split
    · exact advance.bind fun _ => (unary room).bind fun _ => pure _
    · exact (unary room).expressionOver.call

theorem expression (room : Nat) : Orderly (expression room) := (unary room).expressionOver

theorem declarator (type : Datatype) (h : Orderly expr) : Orderly (declarator type expr) :=
  identifier.bind fun _ => (enter _ _).bind fun _ => (accept _).bind fun _ =>
    ite (h.bind fun _ => pure _) (pure _)

theorem variableDecls (h : Orderly expr) : Orderly (variableDecls expr) :=
  datatype.bind fun type => (declarator type h).commaSeparated.bind fun _ =>
    (expect _).bind fun _ => pure _

theorem exprStmt (h : Orderly expr) : Orderly (exprStmt expr) :=
  current.bind fun _ => h.bind fun _ => pure _

theorem entry (h : Orderly expr) (hs : Orderly stmt) : Orderly (entry expr stmt) :=
  current.bind fun _ => ite h.variableDecls (hs.bind fun _ => pure _)

theorem entryStep (h : Orderly expr) (hs : Orderly stmt) (body : List Stmt) :
    Orderly (entryStep expr stmt body) := by
  refine current.bind fun t => ite (pure _) ((h.entry hs).attempt.bind fun r => ?_)
  cases r with
  | ok stmts => exact pure _
  | error d => exact (record d).bind fun _ => synchronize.bind fun _ => pure _

theorem closeBlock (loc : Location) (body : List Stmt) : Orderly (closeBlock loc body) :=
  (expect _).bind fun _ => pure _

theorem blockTail (h : Orderly expr) (hs : Orderly stmt) (loc : Location) (body : List Stmt) :
    Orderly (blockTail expr stmt loc body) :=
  (iterate (h.entryStep hs) body).bind (closeBlock loc)

theorem blockAfter (h : Orderly expr) (hs : Orderly stmt) (loc : Location) (body : List Stmt) :
    ∀ b, Orderly (blockAfter expr stmt loc body b)
  | none => closeBlock loc body
  | some body => h.blockTail hs loc body

theorem block (h : Orderly expr) (hs : Orderly stmt) : Orderly (block expr stmt) :=
  (expect _).bind fun loc => h.blockTail hs loc []

theorem condition (h : Orderly expr) : Orderly (condition expr) :=
  (expect _).bind fun _ => h.bind fun _ => (expect _).bind fun _ => pure _

theorem conditional (h : Orderly expr) (hs : Orderly stmt) (loc : Location) :
    Orderly (conditional expr stmt loc) :=
  advance.bind fun _ => h.condition.bind fun _ => hs.bind fun _ => (accept _).bind fun _ =>
    ite (hs.bind fun _ => pure _) (pure _)

theorem whileLoop (h : Orderly expr) (hs : Orderly stmt) (loc : Location) :
    Orderly (whileLoop expr stmt loc) :=
  advance.bind fun _ => h.condition.bind fun _ => hs.bind fun _ => pure _

theorem doLoop (h : Orderly expr) (hs : Orderly stmt) (loc : Location) :
    Orderly (doLoop expr stmt loc) :=
  advance.bind fun _ => hs.bind fun _ => (expect _).bind fun _ => h.condition.bind fun _ =>
    (expect _).bind fun _ => pure _

theorem forInit (h : Orderly expr) : Orderly (forInit expr) :=
  (accept _).bind fun _ => ite (pure _) (current.bind fun _ => ite h.variableDecls
    (h.exprStmt.bind fun _ => (expect _).bind fun _ => pure _))

theorem forCondition (h : Orderly expr) : Orderly (forCondition expr) := closedBy _ _ h

theorem forStep (h : Orderly expr) : Orderly (forStep expr) :=
  closedBy (.mark .parenClose) (fun _ => none) (h.exprStmt.map some)

theorem forLoop (h : Orderly expr) (hs : Orderly stmt) (loc : Location) :
    Orderly (forLoop expr stmt loc) :=
  advance.bind fun _ => (expect _).bind fun _ => h.forInit.bind fun _ =>
    h.forCondition.bind fun _ => h.forStep.bind fun _ => hs.bind fun _ => pure _

theorem returning (h : Orderly expr) (loc : Location) : Orderly (returning expr loc) := by
  rw [returning_eq]
  exact advance.bind fun _ => (closedBy _ _ (h.map _)).bind fun _ => pure _

theorem statement : ∀ room : Nat, Orderly (statement room)
  | 0 => current.bind fun _ => fail _ _ _
  | room + 1 => by
    have he := expression room
    have hs := statement room
    refine current.bind fun t => ?_
    split
    · exact (he.block hs).bind fun _ => pure _
    · exact he.conditional hs t.loc
    · exact he.doLoop hs t.loc
    · exact he.forLoop hs t.loc
    · exact he.whileLoop hs t.loc
    · exact he.returning t.loc
    · exact he.exprStmt.bind fun _ => (expect _).bind fun _ => pure _

theorem param : Orderly param :=
  current.bind fun _ => datatype.bind fun _ => identifier.bind fun _ =>
    (enter _ _).bind fun _ => pure _

theorem params : Orderly params :=
  (expect _).bind fun _ => closedBy (.mark .parenClose) (fun _ => []) param.commaSeparated

theorem function (room : Nat) : Orderly (function room) :=
  current.bind fun _ => advance.bind fun _ => identifier.bind fun _ => (enter _ _).bind fun _ =>
    params.bind fun _ => (expect _).bind fun _ => datatype.bind fun _ => (retype _ _).bind fun _ =>
      ((expression room).block (statement room)).bind fun _ => pure _

theorem declaration (room : Nat) : Orderly (declaration room) :=
  current.bind fun _ => ite ((function room).bind fun _ => pure _)
    ((expression room).entry (statement room))

theorem declarationStep (room : Nat) (body : List Stmt) : Orderly (declarationStep room body) := by
  refine current.bind fun t => ite (pure _) ((declaration room).attempt.bind fun r => ?_)
  cases r with
  | ok stmts => exact pure _
  | error d =>
    exact (record d).bind fun _ => synchronize.bind fun _ => skipBraces.bind fun _ => pure _

end Orderly

end Ember.Parser
