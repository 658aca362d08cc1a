import Ember.Tree

namespace Ember

/-- A function of a program with the scope it was declared in: frames by number, the innermost
first. -/
structure Closure where
  name : String
  params : List Param
  result : Datatype
  body : List Stmt
  scope : List Nat

/-- What can be called. `print` takes any number of arguments. -/
inductive Callable where
  | closure (f : Closure)
  | print

namespace Callable

def name : Callable → String
  | closure f => f.name
  | print => "print"

/-- The number of arguments, where it is fixed. -/
def arity? : Callable → Option Nat
  | closure f => some f.params.length
  | print => none

end Callable

/-- A value at run time. -/
inductive Value where
  | void
  | int (v : Int64)
  | uint (v : UInt64)
  | bool (b : Bool)
  | func (f : Callable)

namespace Value

/-- The value as it is printed. -/
def render : Value → String
  | void => "void"
  | int v => toString v.toInt
  | uint v => toString v.toNat
  | bool true => "true"
  | bool false => "false"
  | func f => "<fn " ++ f.name ++ ">"

/-- The name of the kind of value. -/
def kindName : Value → String
  | void => "void"
  | int _ | uint _ => "int"
  | bool _ => "bool"
  | func _ => "func"

def isUnsigned : Value → Bool
  | uint _ => true
  | _ => false

/-- The bits of a value that takes part in arithmetic. -/
def word? : Value → Option Int64
  | int v => some v
  | uint v => some v.toInt64
  | bool b => some (if b then 1 else 0)
  | void | func _ => none

/-- Functions and words other than zero count as true. -/
def isTruthy : Value → Bool
  | void => false
  | int v => v != 0
  | uint v => v != 0
  | bool b => b
  | func _ => true

/-- The value as a variable of the given type holds it. What is no word stays as it is. -/
def narrow (type : Datatype) (value : Value) : Value :=
  match value.word? with
  | none => value
  | some v =>
    match type with
    | .boolean => bool (v != 0)
    | .uint64 => uint v.toUInt64
    | _ => if type.isInteger then int (type.narrow v) else value

/-- What a variable of the given type holds at first. -/
def zero (type : Datatype) : Value :=
  match type with
  | .boolean => bool false
  | .uint64 => uint 0
  | _ => if type.isInteger then int 0 else void

/-- The value of a constant. -/
def ofLiteral : Literal → Value
  | .int v => int v
  | .uint v => uint v
  | .bool b => bool b
  | .foreign type v b =>
    if type = .uint64 then uint v.toUInt64 else if type.isInteger then int v else bool b

/-- An operator on signed words; `none` for an operator that has no meaning. -/
def signed? (op : BinaryOp) (a b : Int64) : Option Value :=
  match op with
  | .add => some (int (a + b))
  | .sub => some (int (a - b))
  | .mul => some (int (a * b))
  | .div => some (int (a / b))
  | .mod => some (int (a % b))
  | .eq => some (bool (a == b))
  | .ne => some (bool (a != b))
  | .lt => some (bool (a < b))
  | .gt => some (bool (a > b))
  | .le => some (bool (a ≤ b))
  | .ge => some (bool (a ≥ b))
  | .unknown _ => none

/-- An operator on unsigned words; `none` for an operator that has no meaning. -/
def unsigned? (op : BinaryOp) (a b : UInt64) : Option Value :=
  match op with
  | .add => some (uint (a + b))
  | .sub => some (uint (a - b))
  | .mul => some (uint (a * b))
  | .div => some (uint (a / b))
  | .mod => some (uint (a % b))
  | .eq => some (bool (a == b))
  | .ne => some (bool (a != b))
  | .lt => some (bool (a < b))
  | .gt => some (bool (a > b))
  | .le => some (bool (a ≤ b))
  | .ge => some (bool (a ≥ b))
  | .unknown _ => none

/-- The negative of a value, where it is a word. A boolean becomes an integer. -/
def negate? : Value → Option Value
  | int v => some (int (-v))
  | uint v => some (uint (-v))
  | bool b => some (int (if b then -1 else 0))
  | void | func _ => none

/-- The exit code a program's result stands for. -/
def exitCode (value : Value) : Int64 := value.word?.getD 0

end Value

end Ember
