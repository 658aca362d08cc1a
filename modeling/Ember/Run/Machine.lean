import Ember.Diagnostic
import Ember.Run.Value
import Ember.SymbolTable
import Ember.Tree.Kind

namespace Ember

/-- A variable's value and its type, to which every new value is narrowed. -/
structure Binding where
  value : Value
  type : Datatype

/-- The bindings of one block or call. -/
abbrev Frame := List (Int × Binding)

namespace Frame

def find? (f : Frame) (id : Int) : Option Binding := (List.find? (·.1 == id) f).map (·.2)

/-- Binds a name anew. -/
def declare (f : Frame) (id : Int) (b : Binding) : Frame :=
  (id, b) :: List.filter (·.1 != id) f

/-- Changes the value of a name that is bound. -/
def assign (f : Frame) (id : Int) (value : Value) : Frame :=
  f.map fun (key, b) => if key == id then (key, { b with value }) else (key, b)

end Frame

/-- What a traced run tells. -/
inductive Event where
  | push
  | pop
  | call (name : String)
  | exec (kind : NodeKind)
  deriving DecidableEq

def Event.render : Event → String
  | push => "push environment"
  | pop => "pop environment"
  | call name => "call " ++ name
  | exec kind => "exec " ++ kind.name

/-- What changes while a program runs. Frames are numbered and never dropped, since functions
may keep them; the events are the latest first. -/
structure Machine where
  frames : Array Frame
  output : String
  events : List Event

/-- Why a run stops early. -/
inductive Halt where
  /-- The program did what the language does not allow. -/
  | fault (d : Diagnostic)
  /-- The output could not be written. -/
  | refused (reason : String)
  /-- The tree is none that a source text can give. -/
  | breach (message : String)
  /-- A loop took more rounds than it was given. -/
  | exhausted

def Halt.message : Halt → String
  | fault d => d.render
  | refused reason => "print: " ++ reason
  | breach message => message
  | exhausted => "loop budget exhausted"

/-- What a run is given: the names of the program, the rounds a single loop may take, whether
to tell what it does, and the reason if nothing can be written. -/
structure Setting where
  table : SymbolTable
  budget : Nat
  traced : Bool
  refusal : Option String

/-- A computation that changes the machine, also when it stops early. -/
abbrev Exec (α : Type) := EStateM Halt Machine α

/-- How a statement ends. -/
inductive Flow where
  | next
  | returned (value : Value)

/-- How deep calls may nest inside the program itself. -/
def maxCalls : Nat := 999

namespace Exec

variable {α : Type}

def fault (code : Code) (loc : Location) (args : List (String × Argument)) : Exec α :=
  throw (.fault ⟨code, loc, args⟩)

def note (setting : Setting) (e : Event) : Exec Unit :=
  if setting.traced then modify fun m => { m with events := e :: m.events } else return ()

/-- The name of a symbol. -/
def nameOf (setting : Setting) (id : Int) : Exec String :=
  match setting.table.lookup id with
  | .ok symbol => return symbol.name
  | .error message => throw (.breach message)

/-- The innermost frame of the scope that binds the name, and the binding. -/
def findIn (frames : Array Frame) (id : Int) : List Nat → Option (Nat × Binding)
  | [] => none
  | frame :: rest =>
    match (frames[frame]?.getD []).find? id with
    | some b => some (frame, b)
    | none => findIn frames id rest

/-- The binding that a name refers to. -/
def lookup (setting : Setting) (scope : List Nat) (id : Int) (loc : Location) :
    Exec (Nat × Binding) := do
  match findIn (← get).frames id scope with
  | some found => return found
  | none => fault .undefinedVariable loc [("name", .text (← nameOf setting id))]

/-- Binds a name in the innermost frame of the scope. -/
def declare (scope : List Nat) (id : Int) (type : Datatype) (value : Value) : Exec Unit :=
  modify fun m =>
    match scope with
    | [] => m
    | frame :: _ =>
      { m with frames := m.frames.modify frame (·.declare id ⟨value.narrow type, type⟩) }

def assign (frame : Nat) (id : Int) (value : Value) : Exec Unit :=
  modify fun m => { m with frames := m.frames.modify frame (·.assign id value) }

/-- Runs `body` in a new frame inside the scope. The frame is left also when `body` stops
early. -/
def inFrame (setting : Setting) (scope : List Nat) (body : List Nat → Exec α) : Exec α := do
  note setting .push
  let frame := (← get).frames.size
  modify fun m => { m with frames := m.frames.push [] }
  fun m =>
    match body (frame :: scope) m with
    | .ok a m => (do note setting .pop; return a) m
    | .error h m => (do note setting .pop; throw h) m

/-- Writes a line to the output. -/
def writeLine (setting : Setting) (text : String) : Exec Unit :=
  match setting.refusal with
  | some reason => throw (.refused reason)
  | none => modify fun m => { m with output := m.output ++ text ++ "\n" }

/-- Repeats `body` while `test` holds, for at most the given number of rounds. A return ends
the loop. -/
def whileLoop (test : Exec Bool) (body : Exec Flow) : Nat → Exec Flow
  | 0 => throw .exhausted
  | rounds + 1 => do
    if ← test then
      match ← body with
      | .next => whileLoop test body rounds
      | .returned value => return .returned value
    else return .next

end Exec

end Ember
