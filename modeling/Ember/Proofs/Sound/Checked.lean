import Ember.Run.Session

namespace Ember

open Exec

namespace Exec

/-- What is reported of a frame or an argument that is not there. The interpreter takes such a frame
for an empty one, and binds no parameter to such an argument. -/
def outOfRange : Halt := .breach "index out of range"

/-- All the frames are there. -/
def checkFrames (scope : List Nat) : Exec Unit := do
  if scope.all (· < (← get).frames.size) then return () else throw outOfRange

def checkedLookup (setting : Setting) (scope : List Nat) (id : Int) (loc : Location) :
    Exec (Nat × Binding) := do
  checkFrames scope
  lookup setting scope id loc

def checkedDeclare (scope : List Nat) (id : Int) (type : Datatype) (value : Value) : Exec Unit :=
  match scope with
  | [] => throw outOfRange
  | frame :: rest => do
    checkFrames [frame]
    declare (frame :: rest) id type value

def checkedAssign (frame : Nat) (id : Int) (value : Value) : Exec Unit := do
  checkFrames [frame]
  assign frame id value

end Exec

mutual

def Expr.checkedEval (setting : Setting) (invoke : Invoke) (scope : List Nat) : Expr → Exec Value
  | .literal value _ => return .ofLiteral value
  | .var id loc => do return (← checkedLookup setting scope id loc).2.value
  | .group inner _ => inner.checkedEval setting invoke scope
  | .assign target value _ =>
    match target.unparen with
    | .var id loc => do
      let (frame, b) ← checkedLookup setting scope id loc
      let value := (← value.checkedEval setting invoke scope).narrow b.type
      checkedAssign frame id value
      return value
    | _ => fault .invalidAssignTarget target.loc []
  | .unary op operand loc => do Value.unary op (← operand.checkedEval setting invoke scope) loc
  | .binary op left right loc => do
    let a ← left.checkedEval setting invoke scope
    let b ← right.checkedEval setting invoke scope
    Value.binary op a b loc
  | .call callee args loc => do
    match ← callee.checkedEval setting invoke scope with
    | .func f =>
      f.checkArity args.length loc
      f.call setting invoke (← Expr.checkedEvalAll setting invoke scope args) loc
    | value => fault .notCallable loc [("value", .text (← callee.describe setting value))]

def Expr.checkedEvalAll (setting : Setting) (invoke : Invoke) (scope : List Nat) :
    List Expr → Exec (List Value)
  | [] => return []
  | e :: rest => do
    let value ← e.checkedEval setting invoke scope
    return value :: (← Expr.checkedEvalAll setting invoke scope rest)

end

def Expr.checkedEvalOr (setting : Setting) (invoke : Invoke) (scope : List Nat) (default : Value) :
    Option Expr → Exec Value
  | none => return default
  | some e => e.checkedEval setting invoke scope

mutual

def Stmt.checkedExec (setting : Setting) (invoke : Invoke) (scope : List Nat) : Stmt → Exec Flow
  | .function id params result body _ _ => do
    note setting (.exec .function)
    let name ← nameOf setting id
    checkedDeclare scope id .empty (.func (.closure ⟨name, params, result, body, scope⟩))
    return .next
  | .var id type init _ => do
    note setting (.exec .varDecl)
    checkedDeclare scope id type (← Expr.checkedEvalOr setting invoke scope (.zero type) init)
    return .next
  | .block body _ => do
    note setting (.exec .block)
    inFrame setting scope fun scope => Stmt.checkedExecAll setting invoke scope body
  | .conditional cond body none _ => do
    note setting (.exec .conditional)
    if (← cond.checkedEval setting invoke scope).isTruthy then
      body.checkedExec setting invoke scope
    else return .next
  | .conditional cond body (some other) _ => do
    note setting (.exec .conditional)
    if (← cond.checkedEval setting invoke scope).isTruthy then
      body.checkedExec setting invoke scope
    else other.checkedExec setting invoke scope
  | .loop cond body _ => do
    note setting (.exec .loop)
    whileLoop (Value.isTruthy <$> cond.checkedEval setting invoke scope)
      (body.checkedExec setting invoke scope) setting.budget
  | .returning value _ => do
    note setting (.exec .returning)
    return .returned (← Expr.checkedEvalOr setting invoke scope .void value)
  | .expr e _ => do
    note setting (.exec .exprStmt)
    let _ ← e.checkedEval setting invoke scope
    return .next

def Stmt.checkedExecAll (setting : Setting) (invoke : Invoke) (scope : List Nat) :
    List Stmt → Exec Flow
  | [] => return .next
  | s :: rest => do
    match ← s.checkedExec setting invoke scope with
    | .next => Stmt.checkedExecAll setting invoke scope rest
    | .returned value => return .returned value

end

namespace Closure

/-- Binds parameters to arguments. There must be one for each. -/
def checkedBind (scope : List Nat) : List Param → List Value → Exec Unit
  | [], _ => return ()
  | _ :: _, [] => throw outOfRange
  | p :: params, v :: values => do
    checkedDeclare scope p.id p.type v
    checkedBind scope params values

def checkedInvokeWithin (setting : Setting) : (room : Nat) → Invoke
  | 0, _, _, loc => fault .callStackOverflow loc []
  | room + 1, f, args, _ => do
    note setting (.call f.name)
    let flow ← inFrame setting f.scope fun scope => do
      checkedBind scope f.params args
      note setting (.exec .block)
      inFrame setting scope fun scope =>
        Stmt.checkedExecAll setting (checkedInvokeWithin setting room) scope f.body
    return f.resultOf flow

def checkedInvoke (setting : Setting) : Invoke := checkedInvokeWithin setting maxCalls

end Closure

namespace Session

def checkedRun (s : Session) (options : RunOptions) (p : Program) : Ran Int64 :=
  let s := start s.table
  let setting := s.setting options
  s.perform do
    match ← Stmt.checkedExecAll setting (Closure.checkedInvoke setting) scope p.body with
    | .next => return 0
    | .returned value => return value.exitCode

def checkedExecAll (setting : Setting) (last : Value) : List Stmt → Exec Value
  | [] => return last
  | .expr e _ :: rest => do
    let value ← e.checkedEval setting (Closure.checkedInvoke setting) scope
    checkedExecAll setting value rest
  | s :: rest => do
    match ← s.checkedExec setting (Closure.checkedInvoke setting) scope with
    | .next => checkedExecAll setting last rest
    | .returned value => return value

def checkedExec (s : Session) (options : RunOptions) (p : Program) : Ran Value :=
  s.perform (checkedExecAll (s.setting options) .void p.body)

end Session

end Ember
