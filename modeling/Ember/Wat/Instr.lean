import Ember.Wat.Host

namespace Ember.Wat

/-- Variables of a function: its parameters and the places for what it declares. -/
inductive Local where
  | param (index : Nat)
  | temp (index : Nat)
  deriving DecidableEq

def Local.name : Local → String
  | param i => "$p" ++ toString i
  | temp i => "$l" ++ toString i

/-- The targets of branches: the end of a loop and its start. -/
inductive Label where
  | brk (n : Nat)
  | cont (n : Nat)
  deriving DecidableEq

def Label.name : Label → String
  | brk n => "$brk" ++ toString n
  | cont n => "$cont" ++ toString n

/-- The instructions on numbers. -/
inductive NumOp where
  | add | sub | mul | divS | divU | remS | remU | and
  | eq | ne | ltS | ltU | gtS | gtU | leS | leU | geS | geU | eqz
  | extendI32U | extend8S | extend16S | extend32S
  deriving DecidableEq

def NumOp.name : NumOp → String
  | add => "i64.add"
  | sub => "i64.sub"
  | mul => "i64.mul"
  | divS => "i64.div_s"
  | divU => "i64.div_u"
  | remS => "i64.rem_s"
  | remU => "i64.rem_u"
  | and => "i64.and"
  | eq => "i64.eq"
  | ne => "i64.ne"
  | ltS => "i64.lt_s"
  | ltU => "i64.lt_u"
  | gtS => "i64.gt_s"
  | gtU => "i64.gt_u"
  | leS => "i64.le_s"
  | leU => "i64.le_u"
  | geS => "i64.ge_s"
  | geU => "i64.ge_u"
  | eqz => "i64.eqz"
  | extendI32U => "i64.extend_i32_u"
  | extend8S => "i64.extend8_s"
  | extend16S => "i64.extend16_s"
  | extend32S => "i64.extend32_s"

/-- Instructions. Globals carry the id of the variable they hold. -/
inductive Instr where
  | const (v : Int64)
  | localGet (x : Local)
  | localSet (x : Local)
  | localTee (x : Local)
  | globalGet (id : Int)
  | globalSet (id : Int)
  | call (f : FuncRef)
  | num (op : NumOp)
  | drop
  | ret
  | br (l : Label)
  | brIf (l : Label)
  | block (l : Label) (body : List Instr)
  | loop (l : Label) (body : List Instr)
  | cond (body : List Instr) (alternative : Option (List Instr))

/-- A function with one result. -/
structure Func where
  id : Int
  params : Nat
  locals : Nat
  body : List Instr

/-- A module: globals that start as zero, functions, and the code that starts the program and
gives its exit code. -/
structure Module where
  globals : List Int
  funcs : List Func
  startLocals : Nat
  startBody : List Instr

end Ember.Wat
