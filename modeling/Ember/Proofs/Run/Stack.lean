import Ember.Run.Session

namespace Ember

open Exec

/-- A machine with its stacks, the latest first. A call that is active holds what it has returned, if
it has. The heights tell how many calls were active each time that changed, the latest first. -/
structure StackMachine where
  machine : Machine
  env : List Nat
  calls : List (Option Value)
  heights : List Nat

/-- A computation on a machine with stacks. -/
abbrev StackExec (α : Type) := EStateM Halt StackMachine α

namespace StackExec

variable {α : Type}

/-- Leaves the stacks alone. -/
def lift (p : Exec α) : StackExec α := fun s =>
  match p s.machine with
  | .ok a m => .ok a { s with machine := m }
  | .error h m => .error h { s with machine := m }

/-- Runs with the frames in scope. -/
def inScope (p : List Nat → Exec α) : StackExec α := do lift (p (← get).env)

def pushFrame (setting : Setting) : StackExec Unit := do
  lift (note setting .push)
  modify fun s =>
    { s with
      machine := { s.machine with frames := s.machine.frames.push [] }
      env := s.machine.frames.size :: s.env }

def popFrame (setting : Setting) : StackExec Unit := do
  lift (note setting .pop)
  modify fun s => { s with env := s.env.tail }

def setCalls (calls : List (Option Value)) : StackExec Unit :=
  modify fun s => { s with calls, heights := calls.length :: s.heights }

def pushCall : StackExec Unit := do setCalls (none :: (← get).calls)

def popCall : StackExec Unit := do setCalls (← get).calls.tail

/-- What the call that is active has returned. -/
def returned : StackExec (Option Value) := do return (← get).calls.head?.join

/-- Marks the call that is active. -/
def setReturned (value : Option Value) : StackExec Unit :=
  modify fun s => { s with calls := value :: s.calls.tail }

/-- Runs `after` however `body` ends. -/
def ensuring (body : StackExec α) (after : StackExec Unit) : StackExec α := fun s =>
  match body s with
  | .ok a s => (do after; return a) s
  | .error h s => (do after; throw h) s

/-- Repeats `body` while `test` holds, until the call that is active has returned. -/
def whileLoop (test : StackExec Bool) (body : StackExec Unit) : Nat → StackExec Unit
  | 0 => throw .exhausted
  | rounds + 1 => do
    if ← test then
      body
      if (← returned).isNone then whileLoop test body rounds
    else return ()

end StackExec

open StackExec

/-- How an expression calls a function of the program. -/
abbrev StackInvoke := Closure → List Value → Location → StackExec Value

def Callable.stackCall (setting : Setting) (invoke : StackInvoke) (f : Callable)
    (args : List Value) (loc : Location) : StackExec Value :=
  match f with
  | closure f => invoke f args loc
  | print => lift do
    writeLine setting (" ".intercalate (args.map Value.render))
    return .void

mutual

def Expr.stackEval (setting : Setting) (invoke : StackInvoke) : Expr → StackExec Value
  | .literal value _ => return .ofLiteral value
  | .var id loc => do return (← inScope fun scope => lookup setting scope id loc).2.value
  | .group inner _ => inner.stackEval setting invoke
  | .assign target value _ =>
    match target.unparen with
    | .var id loc => do
      let (frame, b) ← inScope fun scope => lookup setting scope id loc
      let value := (← value.stackEval setting invoke).narrow b.type
      lift (Exec.assign frame id value)
      return value
    | _ => lift (fault .invalidAssignTarget target.loc [])
  | .unary op operand loc => do
    let value ← operand.stackEval setting invoke
    lift (Value.unary op value loc)
  | .binary op left right loc => do
    let a ← left.stackEval setting invoke
    let b ← right.stackEval setting invoke
    lift (Value.binary op a b loc)
  | .call callee args loc => do
    match ← callee.stackEval setting invoke with
    | .func f =>
      lift (f.checkArity args.length loc)
      f.stackCall setting invoke (← Expr.stackEvalAll setting invoke args) loc
    | value => lift do fault .notCallable loc [("value", .text (← callee.describe setting value))]

def Expr.stackEvalAll (setting : Setting) (invoke : StackInvoke) :
    List Expr → StackExec (List Value)
  | [] => return []
  | e :: rest => do
    let value ← e.stackEval setting invoke
    return value :: (← Expr.stackEvalAll setting invoke rest)

end

def Expr.stackEvalOr (setting : Setting) (invoke : StackInvoke) (default : Value) :
    Option Expr → StackExec Value
  | none => return default
  | some e => e.stackEval setting invoke

mutual

/-- Runs a statement, which may mark the call that is active. -/
def Stmt.stackExec (setting : Setting) (invoke : StackInvoke) : Stmt → StackExec Unit
  | .function id params result body _ _ => do
    lift (note setting (.exec .function))
    let name ← lift (nameOf setting id)
    inScope fun scope =>
      declare scope id .empty (.func (.closure ⟨name, params, result, body, scope⟩))
  | .var id type init _ => do
    lift (note setting (.exec .varDecl))
    let value ← Expr.stackEvalOr setting invoke (.zero type) init
    inScope fun scope => declare scope id type value
  | .block body _ => do
    lift (note setting (.exec .block))
    pushFrame setting
    ensuring (Stmt.stackExecAll setting invoke body) (popFrame setting)
  | .conditional cond body none _ => do
    lift (note setting (.exec .conditional))
    if (← cond.stackEval setting invoke).isTruthy then body.stackExec setting invoke
    else return ()
  | .conditional cond body (some other) _ => do
    lift (note setting (.exec .conditional))
    if (← cond.stackEval setting invoke).isTruthy then body.stackExec setting invoke
    else other.stackExec setting invoke
  | .loop cond body _ => do
    lift (note setting (.exec .loop))
    StackExec.whileLoop (Value.isTruthy <$> cond.stackEval setting invoke)
      (body.stackExec setting invoke) setting.budget
  | .returning value _ => do
    lift (note setting (.exec .returning))
    let value ← Expr.stackEvalOr setting invoke .void value
    setReturned (some value)
  | .expr e _ => do
    lift (note setting (.exec .exprStmt))
    let _ ← e.stackEval setting invoke

/-- Runs statements until the call that is active has returned. -/
def Stmt.stackExecAll (setting : Setting) (invoke : StackInvoke) : List Stmt → StackExec Unit
  | [] => return ()
  | s :: rest => do
    s.stackExec setting invoke
    if (← returned).isNone then Stmt.stackExecAll setting invoke rest

end

namespace Closure

/-- What a call yields that ends with the given mark. -/
def resultMarked (f : Closure) (mark : Option Value) : Value :=
  if f.result = .void then .void
  else
    match mark with
    | none => .zero f.result
    | some value => value.narrow f.result

/-- What a call does with its own frames in scope, given how its body runs. The frames that were in
scope are put aside and put back. -/
def stackBody (setting : Setting) (f : Closure) (args : List Value) (body : StackExec Unit) :
    StackExec (Option Value) := do
  let saved := (← get).env
  modify fun s => { s with env := f.scope }
  pushFrame setting
  inScope fun scope => bind scope f.params args
  pushCall
  ensuring (do body; returned) do
    popCall
    lift (note setting .pop)
    modify fun s => { s with env := saved }

/-- Calls a function, unless too many calls are active. The fuel is never used up, since the calls
are counted. -/
def stackInvoke (setting : Setting) : (fuel : Nat) → StackInvoke
  | fuel, f, args, loc => do
    if maxCalls < (← get).calls.length then lift (fault .callStackOverflow loc [])
    else
      match fuel with
      | 0 => throw .exhausted
      | fuel + 1 =>
        lift (note setting (.call f.name))
        let mark ← stackBody setting f args
          (Stmt.stackExec setting (stackInvoke setting fuel) (.block f.body .none))
        return f.resultMarked mark

end Closure

/-- A session that keeps its stacks. -/
structure StackSession where
  table : SymbolTable
  frames : Array Frame
  env : List Nat
  calls : List (Option Value)

/-- What a run gives, and how many calls were active at each change of their number. -/
structure StackRan (α : Type) where
  result : Except Halt α
  output : String
  trace : List Event
  heights : List Nat
  session : StackSession

namespace StackSession

variable {α : Type}

/-- A new session: the frame of the program itself is in scope, and its own call is active. -/
def start (table : SymbolTable) : StackSession :=
  ⟨(Session.start table).table, (Session.start table).frames, [0], [none]⟩

def perform (s : StackSession) (action : StackExec α) : StackRan α :=
  let ran := fun result (t : StackMachine) =>
    ⟨result, t.machine.output, t.machine.events.reverse, t.heights.reverse,
      ⟨s.table, t.machine.frames, t.env, t.calls⟩⟩
  match action ⟨⟨s.frames, "", []⟩, s.env, s.calls, [s.calls.length]⟩ with
  | .ok a t => ran (.ok a) t
  | .error h t => ran (.error h) t

def setting (s : StackSession) (options : RunOptions) : Setting :=
  ⟨s.table, options.budget, options.traced, options.refusal⟩

/-- Runs a program in a fresh session. -/
def run (s : StackSession) (options : RunOptions) (p : Program) : StackRan Int64 :=
  let s := start s.table
  let setting := s.setting options
  s.perform do
    Stmt.stackExecAll setting (Closure.stackInvoke setting maxCalls) p.body
    return ((← returned).map Value.exitCode).getD 0

/-- Runs statements in the session, giving the value of the last expression among them, or what
they return. -/
def execAll (setting : Setting) (last : Value) : List Stmt → StackExec Value
  | [] => return last
  | .expr e _ :: rest => do
    let value ← e.stackEval setting (Closure.stackInvoke setting maxCalls)
    execAll setting value rest
  | s :: rest => do
    s.stackExec setting (Closure.stackInvoke setting maxCalls)
    match ← returned with
    | none => execAll setting last rest
    | some value => return value

/-- Leaves all frames but the first, and all calls but the first. -/
def unwind : StackExec Unit := do
  modify fun s => { s with env := s.env.getLast?.toList }
  setCalls (← get).calls.getLast?.toList

/-- Runs a program in the session. Its own call starts anew, and when the run stops early the
stacks are cleared. -/
def exec (s : StackSession) (options : RunOptions) (p : Program) : StackRan Value :=
  s.perform do
    setReturned none
    fun t =>
      match execAll (s.setting options) .void p.body t with
      | .ok a t => .ok a t
      | .error h t => (do unwind; throw h) t

end StackSession

end Ember
