import Ember.Fold
import Ember.Wat.Scope
import Ember.Wat.Text

namespace Ember.Wat

/-- The instructions that wrap a word to the width and sign of a type. -/
def narrowing : Datatype → List Instr
  | .boolean => [.const 0, .num .ne, .num .extendI32U]
  | .int8 => [.num .extend8S]
  | .int16 => [.num .extend16S]
  | .int32 => [.num .extend32S]
  | .uint8 => [.const 255, .num .and]
  | .uint16 => [.const 65535, .num .and]
  | .uint32 => [.const 4294967295, .num .and]
  | _ => []

/-- A comparison, whose truth value becomes a word. -/
def comparison (op : NumOp) : List Instr := [.num op, .num .extendI32U]

/-- The instructions for an operator on signed words. -/
def signedOp : BinaryOp → List Instr
  | .add => [.num .add]
  | .sub => [.num .sub]
  | .mul => [.num .mul]
  | .div => [.num .divS]
  | .mod => [.num .remS]
  | .eq => comparison .eq
  | .ne => comparison .ne
  | .lt => comparison .ltS
  | .gt => comparison .gtS
  | .le => comparison .leS
  | .ge => comparison .geS
  | .unknown _ => []

/-- The instructions for an operator on unsigned words. -/
def unsignedOp : BinaryOp → List Instr
  | .div => [.num .divU]
  | .mod => [.num .remU]
  | .lt => comparison .ltU
  | .gt => comparison .gtU
  | .le => comparison .leU
  | .ge => comparison .geU
  | op => signedOp op

def Place.get : Place → Instr
  | .local x => .localGet x
  | .global id => .globalGet id

/-- Stores a word and leaves it on the stack. -/
def Place.tee : Place → List Instr
  | .local x => [.localTee x]
  | .global id => [.globalSet id, .globalGet id]

/-- The function that prints the value of an expression. -/
def View.printer (v : View) (e : Expr) : FuncRef :=
  if v.isBool e then .printBool else if v.isUnsigned e then .printU64 else .printI64

/-- What a call calls. -/
inductive Callee where
  | function (f : FunctionDecl)
  | print

/-- Finds what a call calls, which is a function by its name. -/
def View.callee (v : View) (callee : Expr) (actual : Nat) (loc : Location) :
    Except Failure Callee :=
  match callee.unparen with
  | .var id calleeLoc => do
    let name ← View.nameOf v.declared id
    if (v.lookup id).isSome then
      View.fault .loweringNotCallable loc [("value", .text name)]
    else
      match v.function? id with
      | some f =>
        if f.params.length = actual then return .function f
        else
          View.fault .loweringArity loc
            [("name", .text name), ("expected", .number f.params.length),
              ("actual", .number actual)]
      | none =>
        if name = "print" then return .print
        else View.fault .unresolvedReference calleeLoc [("name", .text name)]
  | _ => View.fault .loweringNotCallable loc [("value", .text callee.kind.name)]

mutual

/-- The instructions that leave the value of an expression on the stack. -/
def lowerExpr (v : View) : Expr → Except Failure (List Instr)
  | .literal value _ => return [.const value.word]
  | .group inner _ => lowerExpr v inner
  | .var id loc => do return [(← v.resolve id loc).place.get]
  | .assign target value _ =>
    match target.unparen with
    | .var id loc => do
      let slot ← v.resolve id loc
      return (← lowerExpr v value) ++ narrowing slot.type ++ slot.place.tee
    | _ => View.unsupported target.loc ("assignment to " ++ target.kind.name)
  | .unary .neg operand _ => do
    return .const 0 :: (← lowerExpr v operand) ++ [.num .sub]
  | .unary .not operand _ => do
    return (← lowerExpr v operand) ++ [.num .eqz, .num .extendI32U]
  | .binary op left right _ => do
    let a ← lowerExpr v left
    let b ← lowerExpr v right
    return a ++ b ++ if v.isUnsigned left || v.isUnsigned right then unsignedOp op else signedOp op
  | .call callee args loc => do
    match ← v.callee callee args.length loc with
    | .function f => return (← lowerArgs v args) ++ [.call (.user f.id)]
    | .print => return (← lowerPrinted v args) ++ [.call .printNewline, .const 0]

/-- The instructions that leave the values of expressions on the stack. -/
def lowerArgs (v : View) : List Expr → Except Failure (List Instr)
  | [] => return []
  | e :: rest => do return (← lowerExpr v e) ++ (← lowerArgs v rest)

/-- The instructions that print the values of expressions, a space between each two. -/
def lowerPrinted (v : View) : List Expr → Except Failure (List Instr)
  | [] => return []
  | e :: rest => do
    if v.callsFor .void e then View.unsupported e.loc "void value"
    else
      let code := (← lowerExpr v e) ++ [.call (v.printer e)]
      if rest.isEmpty then return code
      else return code ++ .call .printSpace :: (← lowerPrinted v rest)

end

/-- What grows while statements are lowered: the variables in scope, and the numbers of
variables and loops used. -/
structure Progress where
  scopes : List Scope
  locals : Nat
  loops : Nat

/-- The lowering of statements. -/
abbrev Lower (α : Type) := StateT Progress (Except Failure) α

namespace Lower

variable {α : Type}

/-- Names are resolved as they stand at this point. -/
def view (declared : Declared) (role : Role) : Lower View := do return ⟨declared, role, (← get).scopes⟩

/-- Declares a variable in the innermost scope. -/
def bind (id : Int) (slot : Slot) : Lower PUnit :=
  modify fun p =>
    match p.scopes with
    | [] => p
    | scope :: rest => { p with scopes := ((id, slot) :: scope) :: rest }

/-- Lowers in a new innermost scope. -/
def inScope (body : Lower α) : Lower α := do
  modify fun p => { p with scopes := [] :: p.scopes }
  let a ← body
  modify fun p => { p with scopes := p.scopes.tail }
  return a

/-- Declarations of the program's own statements outside every block are globals. -/
def isTopLevel (role : Role) : Lower Bool := do
  return role = .start && (← get).scopes.length = 1

/-- A place for a variable that is declared here. -/
def newPlace (role : Role) (id : Int) : Lower Place := do
  if ← isTopLevel role then return .global id
  else
    let p ← get
    set { p with locals := p.locals + 1 }
    return .local (.temp p.locals)

/-- Loops are numbered from 1. -/
def newLoop : Lower Nat := do
  let p ← get
  set { p with loops := p.loops + 1 }
  return p.loops + 1

def expr (declared : Declared) (role : Role) (e : Expr) : Lower (List Instr) := do
  lowerExpr (← view declared role) e

/-- An expression that may be absent, zero without it. -/
def exprOr (declared : Declared) (role : Role) : Option Expr → Lower (List Instr)
  | none => return [.const 0]
  | some e => expr declared role e

end Lower

def Place.set : Place → Instr
  | .local x => .localSet x
  | .global id => .globalSet id

/-- Leaves a function with the word on the stack, wrapped to the type of its result. The exit
code of the program is any word. -/
def leaving : Role → List Instr
  | .start => [.ret]
  | .function result =>
    (if result = .void then [.drop, .const 0] else []) ++ narrowing result ++ [.ret]

/-- A loop with the test before the body. -/
def whileLoop (n : Nat) (test body : List Instr) : Instr :=
  .block (.brk n)
    [.loop (.cont n) (test ++ [.num .eqz, .brIf (.brk n)] ++ body ++ [.br (.cont n)])]

mutual

/-- The instructions of a statement, which leave the stack as it was. -/
def lowerStmt (declared : Declared) (role : Role) : Stmt → Lower (List Instr)
  | .function id _ _ _ _ loc => do
    if ← Lower.isTopLevel role then return []
    else View.unsupported loc ("nested function " ++ (← View.nameOf declared id))
  | .var id type init _ => do
    let value ← Lower.exprOr declared role init
    let place ← Lower.newPlace role id
    Lower.bind id ⟨place, type⟩
    return value ++ narrowing type ++ [place.set]
  | .block body _ => Lower.inScope (lowerStmts declared role body)
  | .conditional cond body none _ => do
    let test ← Lower.expr declared role cond
    let body ← lowerStmt declared role body
    return test ++ [.const 0, .num .ne, .cond body none]
  | .conditional cond body (some other) _ => do
    let test ← Lower.expr declared role cond
    let body ← lowerStmt declared role body
    let other ← lowerStmt declared role other
    return test ++ [.const 0, .num .ne, .cond body (some other)]
  | .loop cond body _ => do
    let n ← Lower.newLoop
    let test ← Lower.expr declared role cond
    let body ← lowerStmt declared role body
    return [whileLoop n test body]
  | .returning value _ => do return (← Lower.exprOr declared role value) ++ leaving role
  | .expr e _ => do return (← Lower.expr declared role e) ++ [.drop]

def lowerStmts (declared : Declared) (role : Role) : List Stmt → Lower (List Instr)
  | [] => return []
  | s :: rest => do
    let code ← lowerStmt declared role s
    return code ++ (← lowerStmts declared role rest)

end

/-- The parameters of a function are its first variables. -/
def paramScope (params : List Param) : Scope :=
  (params.zipIdx.map fun (p, i) => (p.id, ⟨.local (.param i), p.type⟩)).reverse

/-- Arguments are wrapped to the types of the parameters on entry. -/
def narrowParams (params : List Param) : List Instr :=
  params.zipIdx.flatMap fun (p, i) =>
    match narrowing p.type with
    | [] => []
    | code => .localGet (.param i) :: code ++ [.localSet (.param i)]

/-- A function ends with zero, which is its result if nothing returned before. -/
def lowerFunction (declared : Declared) (f : FunctionDecl) : Except Failure Func := do
  let (code, p) ← (Lower.inScope (lowerStmts declared (.function f.result) f.body)).run
    ⟨[paramScope f.params], 0, 0⟩
  return ⟨f.id, f.params.length, p.locals, narrowParams f.params ++ code ++ [.const 0]⟩

/-- The functions of a program, each name once. -/
def collectFunctions (table : SymbolTable) (found : List FunctionDecl) :
    List Stmt → Except Failure (List FunctionDecl)
  | [] => return found
  | .function id params result body _ loc :: rest => do
    if found.any (·.id == id) then
      let name ← View.nameOf ⟨table, [], []⟩ id
      View.unsupported loc ("redefinition of " ++ name)
    else collectFunctions table (found ++ [⟨id, params, result, body⟩]) rest
  | _ :: rest => collectFunctions table found rest

/-- Puts a global at its place in the order of ids. A later declaration decides its type. -/
def insertGlobal (id : Int) (type : Datatype) : List (Int × Datatype) → List (Int × Datatype)
  | [] => [(id, type)]
  | (other, otherType) :: rest =>
    if id < other then (id, type) :: (other, otherType) :: rest
    else if id = other then (id, type) :: rest
    else (other, otherType) :: insertGlobal id type rest

/-- The variables that the program declares outside every block and function. -/
def collectGlobals : List (Int × Datatype) → List Stmt → List (Int × Datatype)
  | found, [] => found
  | found, .var id type _ _ :: rest => collectGlobals (insertGlobal id type found) rest
  | found, _ :: rest => collectGlobals found rest

/-- Lowers a program. Functions and globals can be used before they are declared. -/
def lowerProgram (table : SymbolTable) (p : Program) : Except Failure Module := do
  let functions ← collectFunctions table [] p.body
  let declared : Declared := ⟨table, functions, collectGlobals [] p.body⟩
  let funcs ← functions.mapM (lowerFunction declared)
  let (code, progress) ← (lowerStmts declared .start p.body).run ⟨[[]], 0, 0⟩
  return ⟨declared.globals.map (·.1), funcs, progress.locals, code ++ [.const 0]⟩

end Ember.Wat

namespace Ember

/-- The WebAssembly text of a program, with operators on constants replaced by their
results. -/
def Program.toWat (table : SymbolTable) (p : Program) : Except Wat.Failure String := do
  return (← Wat.lowerProgram table p.fold).render

end Ember
