import Ember.Lexeme

namespace Ember

/-- The operators between two operands. `unknown` is a code outside the table, which only
hand-made trees hold. -/
inductive BinaryOp where
  | add | sub | mul | div | mod
  | eq | ne | lt | gt | le | ge
  | unknown (code : Int)
  deriving DecidableEq, Repr

namespace BinaryOp

/-- The operators in the order of their codes. -/
def all : List BinaryOp := [add, sub, mul, div, mod, eq, ne, lt, gt, le, ge]

/-- The operator with the given code. -/
def ofCode (code : Int) : BinaryOp :=
  if code < 0 then unknown code else (all[code.toNat]?).getD (unknown code)

def spelling : BinaryOp → String
  | add => "+"
  | sub => "-"
  | mul => "*"
  | div => "/"
  | mod => "%"
  | eq => "=="
  | ne => "!="
  | lt => "<"
  | gt => ">"
  | le => "<="
  | ge => ">="
  | unknown code => "binop(" ++ toString code ++ ")"

/-- The operator with the given spelling. -/
def ofSpelling? (text : String) : Option BinaryOp := all.find? (·.spelling == text)

/-- The operator yields a boolean. Codes past the table count as comparisons, those below it
as arithmetic. -/
def isComparison : BinaryOp → Bool
  | eq | ne | lt | gt | le | ge => true
  | unknown code => 5 ≤ code
  | _ => false

/-- The operator needs a right operand other than zero. -/
def isDivision : BinaryOp → Bool
  | div | mod => true
  | _ => false

/-- How tightly the operator binds, from 1 for equality to 4 for products. -/
def precedence : BinaryOp → Nat
  | eq | ne => 1
  | lt | gt | le | ge => 2
  | add | sub => 3
  | _ => 4

/-- The mark that spells the operator. -/
def mark? : BinaryOp → Option Mark
  | add => some .plus
  | sub => some .minus
  | mul => some .star
  | div => some .slash
  | mod => some .percent
  | eq => some .equal
  | ne => some .notEqual
  | lt => some .less
  | gt => some .greater
  | le => some .lessEqual
  | ge => some .greaterEqual
  | unknown _ => none

end BinaryOp

/-- The operators before one operand. -/
inductive UnaryOp where
  | neg | not
  deriving DecidableEq, Repr

def UnaryOp.spelling : UnaryOp → String
  | neg => "-"
  | not => "!"

/-- The mark that spells the operator. -/
def UnaryOp.mark : UnaryOp → Mark
  | neg => .minus
  | not => .bang

/-- The operator a mark stands for between two operands. -/
def Mark.binaryOp? : Mark → Option BinaryOp
  | plus => some .add
  | minus => some .sub
  | star => some .mul
  | slash => some .div
  | percent => some .mod
  | equal => some .eq
  | notEqual => some .ne
  | less => some .lt
  | greater => some .gt
  | lessEqual => some .le
  | greaterEqual => some .ge
  | _ => none

/-- The operator a mark stands for before an operand. -/
def Mark.unaryOp? : Mark → Option UnaryOp
  | minus => some .neg
  | bang => some .not
  | _ => none

/-- The ways to assign: plainly, or combining the old value with the new one. -/
inductive AssignOp where
  | plain
  | compound (op : BinaryOp)
  deriving DecidableEq, Repr

/-- The assignment a mark stands for. -/
def Mark.assignOp? : Mark → Option AssignOp
  | assign => some .plain
  | plusAssign => some (.compound .add)
  | minusAssign => some (.compound .sub)
  | starAssign => some (.compound .mul)
  | slashAssign => some (.compound .div)
  | percentAssign => some (.compound .mod)
  | _ => none

end Ember
