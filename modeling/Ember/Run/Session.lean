import Ember.Run.Eval

namespace Ember

/-- A session: the names known so far and the frames, of which the first is the program's
own. -/
structure Session where
  table : SymbolTable
  frames : Array Frame

/-- How to run a program. -/
structure RunOptions where
  budget : Nat
  traced : Bool
  refusal : Option String

/-- More rounds than any loop can take in practice. -/
def RunOptions.defaultBudget : Nat := 1000000000000000000

/-- What a run gives, and what it has printed and told until its end. -/
structure Ran (α : Type) where
  result : Except Halt α
  output : String
  trace : List Event
  session : Session

namespace Session

variable {α : Type}

/-- A new session in which only `print` is declared. -/
def start (table : SymbolTable) : Session :=
  let (id, table) := table.add "print" .empty
  ⟨table, #[[((id : Int), ⟨.func .print, .empty⟩)]]⟩

def setting (s : Session) (options : RunOptions) : Setting :=
  ⟨s.table, options.budget, options.traced, options.refusal⟩

/-- Runs a computation in the session. -/
def perform (s : Session) (action : Exec α) : Ran α :=
  match action ⟨s.frames, "", []⟩ with
  | .ok a m => ⟨.ok a, m.output, m.events.reverse, { s with frames := m.frames }⟩
  | .error h m => ⟨.error h, m.output, m.events.reverse, { s with frames := m.frames }⟩

/-- The scope of the program itself. -/
def scope : List Nat := [0]

/-- Runs a program in a fresh session. The result is its exit code: that of what it returns,
else 0. -/
def run (s : Session) (options : RunOptions) (p : Program) : Ran Int64 :=
  let s := start s.table
  let setting := s.setting options
  s.perform do
    match ← Stmt.execAll setting (Closure.invoke setting) scope p.body with
    | .next => return 0
    | .returned value => return value.exitCode

/-- Runs statements in the session, giving the value of the last expression among them, or
what they return. -/
def execAll (setting : Setting) (last : Value) : List Stmt → Exec Value
  | [] => return last
  | .expr e _ :: rest => do
    let value ← e.eval setting (Closure.invoke setting) scope
    execAll setting value rest
  | s :: rest => do
    match ← s.exec setting (Closure.invoke setting) scope with
    | .next => execAll setting last rest
    | .returned value => return value

/-- Runs a program in the session, which keeps what it declares. -/
def exec (s : Session) (options : RunOptions) (p : Program) : Ran Value :=
  s.perform (execAll (s.setting options) .void p.body)

end Session

/-- The lines of a trace. -/
def Event.renderAll (events : List Event) : String :=
  String.join (events.map fun e => e.render ++ "\n")

end Ember
