import Ember.Diagnostic
import Ember.SymbolTable
import Ember.Tree.Kind
import Ember.Wat.Instr

namespace Ember.Wat

/-- Where the value of a variable is kept. -/
inductive Place where
  | local (x : Local)
  | global (id : Int)
  deriving DecidableEq

/-- A variable's place and its type. -/
structure Slot where
  place : Place
  type : Datatype
  deriving DecidableEq

/-- The variables that one block declares, the latest first. -/
abbrev Scope := List (Int × Slot)

/-- A function of the program. -/
structure FunctionDecl where
  id : Int
  params : List Param
  result : Datatype
  body : List Stmt

/-- What the whole program declares, and its names. -/
structure Declared where
  table : SymbolTable
  functions : List FunctionDecl
  globals : List (Int × Datatype)

/-- What is being lowered: the program's own statements or a function with its result. -/
inductive Role where
  | start
  | function (result : Datatype)
  deriving DecidableEq

/-- Why a program has no lowering. -/
inductive Failure where
  /-- The program uses what cannot be lowered. -/
  | fault (d : Diagnostic)
  /-- The tree is none that a source text can give. -/
  | breach (message : String)

/-- A place in the program as names are resolved there: scopes with the innermost first. -/
structure View where
  declared : Declared
  role : Role
  scopes : List Scope

namespace View

variable {α : Type}

def fault (code : Code) (loc : Location) (args : List (String × Argument)) : Except Failure α :=
  .error (.fault ⟨code, loc, args⟩)

def unsupported (loc : Location) (what : String) : Except Failure α :=
  fault .unsupportedConstruct loc [("value", .text what)]

/-- The name of a symbol. -/
def nameOf (declared : Declared) (id : Int) : Except Failure String :=
  match declared.table.lookup id with
  | .ok symbol => .ok symbol.name
  | .error message => .error (.breach message)

def function? (v : View) (id : Int) : Option FunctionDecl := v.declared.functions.find? (·.id == id)

/-- The innermost scope that declares the name decides. -/
def findIn (id : Int) : List Scope → Option Slot
  | [] => none
  | scope :: rest =>
    match scope.find? (·.1 == id) with
    | some (_, slot) => some slot
    | none => findIn id rest

/-- The variable a name refers to. Functions see every global; the program's own statements
see those declared so far. -/
def lookup (v : View) (id : Int) : Option Slot :=
  match findIn id v.scopes, v.role with
  | some slot, _ => some slot
  | none, .start => none
  | none, .function _ =>
    (v.declared.globals.find? (·.1 == id)).map fun (_, type) => ⟨.global id, type⟩

/-- The variable a name has to refer to. -/
def resolve (v : View) (id : Int) (loc : Location) : Except Failure Slot :=
  match v.lookup id with
  | some slot => .ok slot
  | none => do
    let name ← nameOf v.declared id
    match v.function? id with
    | some _ => unsupported loc ("function value " ++ name)
    | none => fault .unresolvedReference loc [("name", .text name)]

/-- The function that an expression calls. -/
def calledFunction? (v : View) (e : Expr) : Option FunctionDecl :=
  match e.unparen with
  | .call callee _ _ =>
    match callee.unparen with
    | .var id _ => if (v.lookup id).isSome then none else v.function? id
    | _ => none
  | _ => none

/-- The expression calls a function with the given result. -/
def callsFor (v : View) (type : Datatype) (e : Expr) : Bool :=
  match v.calledFunction? e with
  | some f => f.result == type
  | none => false

/-- The expression is a variable of the given type. -/
def isVariableOf (v : View) (type : Datatype) (e : Expr) : Bool :=
  match e with
  | .var id _ =>
    match v.lookup id with
    | some slot => slot.type == type
    | none => false
  | _ => false

/-- The expression yields a boolean, as far as its form tells. -/
def isBool (v : View) : Expr → Bool
  | .literal value _ => value.type == .boolean
  | .group inner _ => isBool v inner
  | .var id loc => v.isVariableOf .boolean (.var id loc)
  | .assign target _ _ => v.isVariableOf .boolean target.unparen
  | .unary op _ _ => op == .not
  | .binary op _ _ _ => op.isComparison
  | .call callee args loc => v.callsFor .boolean (.call callee args loc)

/-- The expression yields an unsigned word, as far as its form tells: arithmetic with one
does. -/
def isUnsigned (v : View) : Expr → Bool
  | .literal value _ => value.isUnsigned
  | .group inner _ => isUnsigned v inner
  | .var id loc => v.isVariableOf .uint64 (.var id loc)
  | .assign target _ _ => v.isVariableOf .uint64 target.unparen
  | .unary op operand _ => op == .neg && isUnsigned v operand
  | .binary op left right _ => !op.isComparison && (isUnsigned v left || isUnsigned v right)
  | .call callee args loc => v.callsFor .uint64 (.call callee args loc)

end View

end Ember.Wat
