import Ember.Wat.Instr

namespace Ember.Wat

/-- An operand. Comparisons give the narrow one. -/
inductive Operand where
  | i32 (v : UInt32)
  | i64 (v : Int64)
  deriving DecidableEq

/-- What instructions work on besides their operands. Only variables that are declared have a
value. -/
structure Store where
  locals : Local → Option Int64
  globals : Int → Option Int64
  output : String

structure State where
  stack : List Operand
  store : Store

/-- Why execution stops early. -/
inductive Stop where
  /-- A division has no result. -/
  | trap
  /-- An instruction does not find what it needs. No valid module comes to this. -/
  | stuck
  | exhausted
  deriving DecidableEq

/-- How a sequence of instructions ends. -/
inductive Ending where
  | next
  | branch (l : Label)
  | returned (v : Int64)
  deriving DecidableEq

abbrev Step := State → Except Stop (Ending × State)

/-- How functions are called. The operands are on the stack, and the result is left there. -/
abbrev Calls := FuncRef → State → Except Stop State

/-- The narrow operand that stands for a truth value. -/
def Operand.truth (b : Bool) : Operand := .i32 (if b then 1 else 0)

/-- What an operator makes of two words. -/
def NumOp.combine (op : NumOp) (a b : Int64) : Except Stop Operand :=
  match op with
  | .add => .ok (.i64 (a + b))
  | .sub => .ok (.i64 (a - b))
  | .mul => .ok (.i64 (a * b))
  | .and => .ok (.i64 (a &&& b))
  | .divS =>
    if b = 0 then .error .trap
    else if a = Int64.minValue ∧ b = -1 then .error .trap
    else .ok (.i64 (a / b))
  | .divU => if b = 0 then .error .trap else .ok (.i64 (a.toUInt64 / b.toUInt64).toInt64)
  | .remS => if b = 0 then .error .trap else .ok (.i64 (a % b))
  | .remU => if b = 0 then .error .trap else .ok (.i64 (a.toUInt64 % b.toUInt64).toInt64)
  | .eq => .ok (.truth (a == b))
  | .ne => .ok (.truth (a != b))
  | .ltS => .ok (.truth (a < b))
  | .ltU => .ok (.truth (a.toUInt64 < b.toUInt64))
  | .gtS => .ok (.truth (a > b))
  | .gtU => .ok (.truth (a.toUInt64 > b.toUInt64))
  | .leS => .ok (.truth (a ≤ b))
  | .leU => .ok (.truth (a.toUInt64 ≤ b.toUInt64))
  | .geS => .ok (.truth (a ≥ b))
  | .geU => .ok (.truth (a.toUInt64 ≥ b.toUInt64))
  | .eqz | .extendI32U | .extend8S | .extend16S | .extend32S => .error .stuck

/-- An operator takes its operands from the stack and leaves its result there. -/
def NumOp.run : NumOp → List Operand → Except Stop (List Operand)
  | .eqz, .i64 a :: rest => .ok (.truth (a == 0) :: rest)
  | .extendI32U, .i32 a :: rest => .ok (.i64 a.toUInt64.toInt64 :: rest)
  | .extend8S, .i64 a :: rest => .ok (.i64 a.toInt8.toInt64 :: rest)
  | .extend16S, .i64 a :: rest => .ok (.i64 a.toInt16.toInt64 :: rest)
  | .extend32S, .i64 a :: rest => .ok (.i64 a.toInt32.toInt64 :: rest)
  | op, .i64 b :: .i64 a :: rest => do return (← op.combine a b) :: rest
  | _, _ => .error .stuck

def Store.setLocal (s : Store) (x : Local) (v : Int64) : Store :=
  { s with locals := fun y => if y = x then some v else s.locals y }

def Store.setGlobal (s : Store) (id : Int) (v : Int64) : Store :=
  { s with globals := fun key => if key = id then some v else s.globals key }

/-- What follows a block: its operands are put on those around it, and a branch to its label goes
on after it. -/
def afterBlock (l : Label) (around : List Operand) : Ending × State → Ending × State
  | (.next, s) => (.next, { s with stack := s.stack ++ around })
  | (.branch l', s) =>
    if l' = l then (.next, { s with stack := around }) else (.branch l', s)
  | (.returned v, s) => (.returned v, s)

/-- What follows a branch of a conditional, which has no label. -/
def afterCond (around : List Operand) : Ending × State → Ending × State
  | (.next, s) => (.next, { s with stack := s.stack ++ around })
  | (.branch l, s) => (.branch l, s)
  | (.returned v, s) => (.returned v, s)

/-- Repeats the body of a loop as often as it branches to the label of the loop. -/
def iterate (l : Label) (body : Step) (around : List Operand) : Nat → Step
  | 0, _ => .error .exhausted
  | rounds + 1, s => do
    match ← body { s with stack := [] } with
    | (.branch l', s) => if l' = l then iterate l body around rounds s else return (.branch l', s)
    | (.next, s) => return (.next, { s with stack := s.stack ++ around })
    | (.returned v, s) => return (.returned v, s)

mutual

/-- Executes an instruction. -/
def Instr.run (calls : Calls) (rounds : Nat) : Instr → Step
  | .const v, s => .ok (.next, { s with stack := .i64 v :: s.stack })
  | .localGet x, s =>
    match s.store.locals x with
    | some v => .ok (.next, { s with stack := .i64 v :: s.stack })
    | none => .error .stuck
  | .localSet x, s =>
    match s.stack, s.store.locals x with
    | .i64 v :: rest, some _ => .ok (.next, ⟨rest, s.store.setLocal x v⟩)
    | _, _ => .error .stuck
  | .localTee x, s =>
    match s.stack, s.store.locals x with
    | .i64 v :: rest, some _ => .ok (.next, ⟨.i64 v :: rest, s.store.setLocal x v⟩)
    | _, _ => .error .stuck
  | .globalGet id, s =>
    match s.store.globals id with
    | some v => .ok (.next, { s with stack := .i64 v :: s.stack })
    | none => .error .stuck
  | .globalSet id, s =>
    match s.stack, s.store.globals id with
    | .i64 v :: rest, some _ => .ok (.next, ⟨rest, s.store.setGlobal id v⟩)
    | _, _ => .error .stuck
  | .call f, s => do return (.next, ← calls f s)
  | .num op, s => do return (.next, { s with stack := ← op.run s.stack })
  | .drop, s =>
    match s.stack with
    | _ :: rest => .ok (.next, { s with stack := rest })
    | [] => .error .stuck
  | .ret, s =>
    match s.stack with
    | .i64 v :: _ => .ok (.returned v, s)
    | _ => .error .stuck
  | .br l, s => .ok (.branch l, s)
  | .brIf l, s =>
    match s.stack with
    | .i32 v :: rest => .ok (if v = 0 then .next else .branch l, { s with stack := rest })
    | _ => .error .stuck
  | .block l body, s => do
    return afterBlock l s.stack (← Instr.runAll calls rounds body { s with stack := [] })
  | .loop l body, s => iterate l (Instr.runAll calls rounds body) s.stack rounds s
  | .cond body none, s =>
    match s.stack with
    | .i32 v :: rest =>
      if v = 0 then .ok (.next, { s with stack := rest })
      else do return afterCond rest (← Instr.runAll calls rounds body { s with stack := [] })
    | _ => .error .stuck
  | .cond body (some other), s =>
    match s.stack with
    | .i32 v :: rest =>
      if v = 0 then do
        return afterCond rest (← Instr.runAll calls rounds other { s with stack := [] })
      else do return afterCond rest (← Instr.runAll calls rounds body { s with stack := [] })
    | _ => .error .stuck

/-- Executes instructions until one of them does not go on to the next. -/
def Instr.runAll (calls : Calls) (rounds : Nat) : List Instr → Step
  | [], s => .ok (.next, s)
  | i :: rest, s => do
    match ← i.run calls rounds s with
    | (.next, s) => Instr.runAll calls rounds rest s
    | ended => return ended

end

attribute [grind =] Instr.run Instr.runAll

/-- Takes words from the stack, of which the last is on top. -/
def popWords : Nat → List Operand → Option (List Int64 × List Operand)
  | 0, stack => some ([], stack)
  | n + 1, .i64 v :: stack => (popWords n stack).map fun (words, rest) => (words ++ [v], rest)
  | _ + 1, _ => none

/-- The variables of a function at its beginning: the arguments, and zeros. -/
def entryLocals (args : List Int64) (temps : Nat) : Local → Option Int64
  | .param i => args[i]?
  | .temp i => if i < temps then some 0 else none

/-- The operand that a body leaves or returns. It is the only one that is left. -/
def resultOf : Ending × State → Except Stop (Int64 × Store)
  | (.next, ⟨[.i64 v], store⟩) => .ok (v, store)
  | (.returned v, s) => .ok (v, s.store)
  | _ => .error .stuck

/-- Runs the body of a function with the given variables. -/
def runBody (calls : Calls) (rounds : Nat) (body : List Instr) (locals : Local → Option Int64)
    (store : Store) : Except Stop (Int64 × Store) := do
  resultOf (← Instr.runAll calls rounds body ⟨[], { store with locals }⟩)

/-- Calls a function of the module. The variables of the caller are there again after it. -/
def Func.call (calls : Calls) (rounds : Nat) (f : Func) (s : State) : Except Stop State :=
  match popWords f.params s.stack with
  | none => .error .stuck
  | some (args, rest) => do
    let (v, store) ← runBody calls rounds f.body (entryLocals args f.locals) s.store
    return ⟨.i64 v :: rest, { store with locals := s.store.locals }⟩

/-- Calls a function of the host, which writes to the output. -/
def hostCall (f : FuncRef) (s : State) : Except Stop State :=
  let write (call : HostCall) (rest : List Operand) : Except Stop State :=
    .ok ⟨rest, { s.store with output := s.store.output ++ call.render }⟩
  match f, s.stack with
  | .printI64, .i64 v :: rest => write (.i64 v) rest
  | .printU64, .i64 v :: rest => write (.u64 v) rest
  | .printBool, .i64 v :: rest => write (.bool v) rest
  | .printSpace, rest => write .space rest
  | .printNewline, rest => write .newline rest
  | _, _ => .error .stuck

namespace Module

/-- Calls a function from inside a module, where calls may nest `depth` deep. -/
def callWithin (m : Module) (rounds : Nat) : (depth : Nat) → Calls
  | 0, .user _, _ => .error .exhausted
  | depth + 1, .user id, s =>
    match m.funcs.find? (·.id == id) with
    | some f => f.call (callWithin m rounds depth) rounds s
    | none => .error .stuck
  | _, f, s => hostCall f s

/-- Executes a module from its start. The result is the exit code, and what was written. What does
not run out of rounds or depth does not depend on how many there are. -/
def execute (m : Module) (rounds depth : Nat) : Except Stop (Int64 × String) := do
  let (code, store) ← runBody (m.callWithin rounds depth) rounds m.startBody
    (entryLocals [] m.startLocals)
    ⟨fun _ => none, fun id => if id ∈ m.globals then some 0 else none, ""⟩
  return (code, store.output)

end Module

end Ember.Wat
