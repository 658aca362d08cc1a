namespace Ember.Wat

/-- Functions that can be called: those of the program, and those of the host that write. -/
inductive FuncRef where
  | user (id : Int)
  | printI64 | printU64 | printBool | printSpace | printNewline
  deriving DecidableEq

def FuncRef.name : FuncRef → String
  | user id => "$f" ++ toString id
  | printI64 => "$print_i64"
  | printU64 => "$print_u64"
  | printBool => "$print_bool"
  | printSpace => "$print_space"
  | printNewline => "$print_newline"

/-- The functions that a compiled program imports to write its output. All take words. -/
inductive HostCall where
  | i64 (v : Int64)
  | u64 (v : Int64)
  | bool (v : Int64)
  | space
  | newline
  deriving DecidableEq

/-- What a call of the host writes. -/
def HostCall.render : HostCall → String
  | i64 v => toString v.toInt
  | u64 v => toString v.toUInt64.toNat
  | bool v => if v = 0 then "false" else "true"
  | space => " "
  | newline => "\n"

end Ember.Wat
