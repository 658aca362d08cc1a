import Ember.Run.Machine

namespace Ember

open Exec

/-- How an expression calls a function of the program, at a place. -/
abbrev Invoke := Closure → List Value → Location → Exec Value

namespace Value

/-- An operator applied to two values. One unsigned word makes the operation unsigned. -/
def binary (op : BinaryOp) (left right : Value) (loc : Location) : Exec Value :=
  match left.word?, right.word? with
  | some a, some b =>
    if op.isDivision ∧ b = 0 then fault .divisionByZero loc []
    else
      let result :=
        if left.isUnsigned || right.isUnsigned then unsigned? op a.toUInt64 b.toUInt64
        else signed? op a b
      match result, op with
      | some value, _ => return value
      | none, .unknown code => throw (.breach ("interp: unknown operator " ++ toString code))
      | none, _ => throw (.breach "interp: unknown operator")
  | _, _ => fault .invalidOperand loc [("operator", .text op.spelling)]

/-- An operator applied to one value. -/
def unary (op : UnaryOp) (operand : Value) (loc : Location) : Exec Value :=
  match op with
  | .not => return bool (!operand.isTruthy)
  | .neg =>
    match operand.negate? with
    | some value => return value
    | none => fault .invalidOperand loc [("operator", .text op.spelling)]

end Value

namespace Callable

/-- A call passes as many arguments as the callee has parameters. -/
def checkArity (f : Callable) (actual : Nat) (loc : Location) : Exec Unit :=
  match f.arity? with
  | none => return ()
  | some expected =>
    if expected = actual then return ()
    else fault .arityMismatch loc
      [("name", .text f.name), ("expected", .number expected), ("actual", .number actual)]

/-- Calls with arguments that are evaluated. -/
def call (setting : Setting) (invoke : Invoke) (f : Callable) (args : List Value)
    (loc : Location) : Exec Value :=
  match f with
  | closure f => invoke f args loc
  | print => do
    writeLine setting (" ".intercalate (args.map Value.render))
    return .void

end Callable

/-- How a callee that is no function is named: by its variable, else by its value. -/
def Expr.describe (setting : Setting) (callee : Expr) (value : Value) : Exec String :=
  match callee.unparen with
  | .var id _ => nameOf setting id
  | _ => return value.render

mutual

/-- The value of an expression. Operands are evaluated from the left, all of them. A call
checks what it calls before it evaluates its arguments, and an assignment finds its variable
before it evaluates the new value. -/
def Expr.eval (setting : Setting) (invoke : Invoke) (scope : List Nat) : Expr → Exec Value
  | .literal value _ => return .ofLiteral value
  | .var id loc => do return (← lookup setting scope id loc).2.value
  | .group inner _ => inner.eval setting invoke scope
  | .assign target value _ =>
    match target.unparen with
    | .var id loc => do
      let (frame, b) ← lookup setting scope id loc
      let value := (← value.eval setting invoke scope).narrow b.type
      Exec.assign frame id value
      return value
    | _ => fault .invalidAssignTarget target.loc []
  | .unary op operand loc => do Value.unary op (← operand.eval setting invoke scope) loc
  | .binary op left right loc => do
    let a ← left.eval setting invoke scope
    let b ← right.eval setting invoke scope
    Value.binary op a b loc
  | .call callee args loc => do
    match ← callee.eval setting invoke scope with
    | .func f =>
      f.checkArity args.length loc
      f.call setting invoke (← Expr.evalAll setting invoke scope args) loc
    | value => fault .notCallable loc [("value", .text (← callee.describe setting value))]

def Expr.evalAll (setting : Setting) (invoke : Invoke) (scope : List Nat) :
    List Expr → Exec (List Value)
  | [] => return []
  | e :: rest => do
    let value ← e.eval setting invoke scope
    return value :: (← Expr.evalAll setting invoke scope rest)

end

/-- The value of an expression that may be absent. -/
def Expr.evalOr (setting : Setting) (invoke : Invoke) (scope : List Nat) (default : Value) :
    Option Expr → Exec Value
  | none => return default
  | some e => e.eval setting invoke scope

mutual

/-- Runs a statement. -/
def Stmt.exec (setting : Setting) (invoke : Invoke) (scope : List Nat) : Stmt → Exec Flow
  | .function id params result body _ _ => do
    note setting (.exec .function)
    let name ← nameOf setting id
    declare scope id .empty (.func (.closure ⟨name, params, result, body, scope⟩))
    return .next
  | .var id type init _ => do
    note setting (.exec .varDecl)
    declare scope id type (← Expr.evalOr setting invoke scope (.zero type) init)
    return .next
  | .block body _ => do
    note setting (.exec .block)
    inFrame setting scope fun scope => Stmt.execAll setting invoke scope body
  | .conditional cond body none _ => do
    note setting (.exec .conditional)
    if (← cond.eval setting invoke scope).isTruthy then body.exec setting invoke scope
    else return .next
  | .conditional cond body (some other) _ => do
    note setting (.exec .conditional)
    if (← cond.eval setting invoke scope).isTruthy then body.exec setting invoke scope
    else other.exec setting invoke scope
  | .loop cond body _ => do
    note setting (.exec .loop)
    whileLoop (Value.isTruthy <$> cond.eval setting invoke scope)
      (body.exec setting invoke scope) setting.budget
  | .returning value _ => do
    note setting (.exec .returning)
    return .returned (← Expr.evalOr setting invoke scope .void value)
  | .expr e _ => do
    note setting (.exec .exprStmt)
    let _ ← e.eval setting invoke scope
    return .next

/-- Runs statements until one of them returns. -/
def Stmt.execAll (setting : Setting) (invoke : Invoke) (scope : List Nat) :
    List Stmt → Exec Flow
  | [] => return .next
  | s :: rest => do
    match ← s.exec setting invoke scope with
    | .next => Stmt.execAll setting invoke scope rest
    | .returned value => return .returned value

end

namespace Closure

/-- Binds parameters to arguments, one after the other. -/
def bind (scope : List Nat) : List Param → List Value → Exec Unit
  | p :: params, v :: values => do
    declare scope p.id p.type v
    bind scope params values
  | _, _ => return ()

/-- What a call yields. A function without a result yields none; one that ends without a
return yields the zero of its type. -/
def resultOf (f : Closure) : Flow → Value
  | .next => if f.result = .void then .void else .zero f.result
  | .returned value => if f.result = .void then .void else value.narrow f.result

/-- Calls a function, inside which calls may nest `room` deep. The body is a block inside the
frame of the parameters. -/
def invokeWithin (setting : Setting) : (room : Nat) → Invoke
  | 0, _, _, loc => fault .callStackOverflow loc []
  | room + 1, f, args, _ => do
    note setting (.call f.name)
    let flow ← inFrame setting f.scope fun scope => do
      bind scope f.params args
      note setting (.exec .block)
      inFrame setting scope fun scope =>
        Stmt.execAll setting (invokeWithin setting room) scope f.body
    return f.resultOf flow

/-- Calls a function from the program itself. -/
def invoke (setting : Setting) : Invoke := invokeWithin setting maxCalls

end Closure

end Ember
