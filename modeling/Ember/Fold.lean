import Ember.Tree

namespace Ember

namespace Literal

/-- The result of an operator on signed words. Division by zero has none. -/
def signed? (op : BinaryOp) (a b : Int64) : Option Literal :=
  if op.isDivision ∧ b = 0 then none
  else
    match op with
    | .add => some (.int (a + b))
    | .sub => some (.int (a - b))
    | .mul => some (.int (a * b))
    | .div => some (.int (a / b))
    | .mod => some (.int (a % b))
    | .eq => some (.bool (a == b))
    | .ne => some (.bool (a != b))
    | .lt => some (.bool (a < b))
    | .gt => some (.bool (a > b))
    | .le => some (.bool (a ≤ b))
    | .ge => some (.bool (a ≥ b))
    | .unknown _ => none

/-- The result of an operator on unsigned words. Division by zero has none. -/
def unsigned? (op : BinaryOp) (a b : UInt64) : Option Literal :=
  if op.isDivision ∧ b = 0 then none
  else
    match op with
    | .add => some (.uint (a + b))
    | .sub => some (.uint (a - b))
    | .mul => some (.uint (a * b))
    | .div => some (.uint (a / b))
    | .mod => some (.uint (a % b))
    | .eq => some (.bool (a == b))
    | .ne => some (.bool (a != b))
    | .lt => some (.bool (a < b))
    | .gt => some (.bool (a > b))
    | .le => some (.bool (a ≤ b))
    | .ge => some (.bool (a ≥ b))
    | .unknown _ => none

/-- The result of an operator on constants. One unsigned constant makes the operation
unsigned. -/
def combine? (op : BinaryOp) (a b : Literal) : Option Literal :=
  if a.isUnsigned || b.isUnsigned then unsigned? op a.word.toUInt64 b.word.toUInt64
  else signed? op a.word b.word

/-- The result of an operator before a constant. -/
def apply : UnaryOp → Literal → Literal
  | .not, l => .bool (l.word == 0)
  | .neg, l => if l.isUnsigned then .uint (-l.word.toUInt64) else .int (-l.word)

end Literal

namespace Expr

/-- Parentheses around a constant are dropped. -/
def foldedGroup (inner : Expr) (loc : Location) : Expr :=
  match inner with
  | .literal value _ => .literal value loc
  | inner => .group inner loc

/-- An operator before a constant is applied. -/
def foldedUnary (op : UnaryOp) (operand : Expr) (loc : Location) : Expr :=
  match operand with
  | .literal value _ => .literal (value.apply op) loc
  | operand => .unary op operand loc

/-- An operator between constants is applied if it has a result. -/
def foldedBinary (op : BinaryOp) (left right : Expr) (loc : Location) : Expr :=
  match left, right with
  | .literal a _, .literal b _ =>
    match Literal.combine? op a b with
    | some value => .literal value loc
    | none => .binary op left right loc
  | left, right => .binary op left right loc

end Expr

mutual

/-- Replaces operators on constants by their results. The target of an assignment stays as it
is written. -/
def Expr.fold : Expr → Expr
  | .literal value loc => .literal value loc
  | .var id loc => .var id loc
  | .group inner loc => Expr.foldedGroup inner.fold loc
  | .assign target value loc => .assign target value.fold loc
  | .call callee args loc => .call callee.fold (Expr.foldAll args) loc
  | .unary op operand loc => Expr.foldedUnary op operand.fold loc
  | .binary op left right loc => Expr.foldedBinary op left.fold right.fold loc

def Expr.foldAll : List Expr → List Expr
  | [] => []
  | e :: rest => e.fold :: Expr.foldAll rest

end

mutual

/-- Folds every expression of a statement. -/
def Stmt.fold : Stmt → Stmt
  | .function id params result body bodyLoc loc =>
    .function id params result (Stmt.foldAll body) bodyLoc loc
  | .var id type init loc => .var id type (init.map Expr.fold) loc
  | .block body loc => .block (Stmt.foldAll body) loc
  | .conditional cond body none loc => .conditional cond.fold body.fold none loc
  | .conditional cond body (some other) loc =>
    .conditional cond.fold body.fold (some other.fold) loc
  | .loop cond body loc => .loop cond.fold body.fold loc
  | .returning value loc => .returning (value.map Expr.fold) loc
  | .expr e loc => .expr e.fold loc

def Stmt.foldAll : List Stmt → List Stmt
  | [] => []
  | s :: rest => s.fold :: Stmt.foldAll rest

end

/-- The program with operators on constants replaced by their results. -/
def Program.fold (p : Program) : Program := { p with body := Stmt.foldAll p.body }

end Ember
