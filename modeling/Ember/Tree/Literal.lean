import Ember.Datatype

namespace Ember

/-- A constant. `foreign` is a constant of a type that no literal of the language has; only
hand-made trees hold one. -/
inductive Literal where
  | int (v : Int64)
  | uint (v : UInt64)
  | bool (b : Bool)
  | foreign (type : Datatype) (v : Int64) (b : Bool)
  deriving DecidableEq

namespace Literal

/-- The constant of a type from an integer and a truth value, of which the type uses one. -/
def ofType : Datatype → Int64 → Bool → Literal
  | .int64, v, _ => int v
  | .uint64, v, _ => uint v.toUInt64
  | .boolean, _, b => bool b
  | type, v, b => foreign type v b

def type : Literal → Datatype
  | int _ => .int64
  | uint _ => .uint64
  | bool _ => .boolean
  | foreign type _ _ => type

/-- The constant as a 64-bit word: booleans are 0 and 1. -/
def word : Literal → Int64
  | int v => v
  | uint v => v.toInt64
  | bool b => if b then 1 else 0
  | foreign .boolean _ b => if b then 1 else 0
  | foreign _ v _ => v

/-- A truth value as it is written. -/
def boolText (b : Bool) : String := if b then "true" else "false"

/-- The constant as it is written in a source text. -/
def render : Literal → String
  | int v => toString v.toInt
  | uint v => toString v.toNat
  | bool b => boolText b
  | foreign type v b =>
    if type = .uint64 then toString v.toUInt64.toNat
    else if type.isInteger then toString v.toInt
    else boolText b

/-- The word is to be read without a sign. -/
def isUnsigned (l : Literal) : Bool := l.type == .uint64

end Literal

end Ember
