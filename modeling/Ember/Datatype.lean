import Ember.Lexeme

namespace Ember

/-- The flat type of a declaration. `empty` is the type of a name that is only referred to;
`other` is a code outside the table, which only hand-made trees hold. -/
inductive Datatype where
  | empty | void | boolean
  | int8 | int16 | int32 | int64
  | uint8 | uint16 | uint32 | uint64
  | other (code : Int)
  deriving DecidableEq, Repr

namespace Datatype

/-- The types in the order of their codes. -/
def all : List Datatype :=
  [empty, void, boolean, int8, int16, int32, int64, uint8, uint16, uint32, uint64]

/-- The type with the given code. -/
def ofCode (code : Int) : Datatype :=
  if code < 0 then other code else (all[code.toNat]?).getD (other code)

def name : Datatype → String
  | empty => "empty"
  | void => "void"
  | boolean => "bool"
  | int8 => "int8"
  | int16 => "int16"
  | int32 => "int32"
  | int64 => "int64"
  | uint8 => "uint8"
  | uint16 => "uint16"
  | uint32 => "uint32"
  | uint64 => "uint64"
  | other code => "datatype(" ++ toString code ++ ")"

/-- The type with the given name. -/
def ofName? (name : String) : Option Datatype :=
  all.find? (·.name == name)

/-- The keyword that names the type. -/
def keyword? : Datatype → Option Keyword
  | void => some .voidKw
  | boolean => some .boolKw
  | int8 => some .int8Kw
  | int16 => some .int16Kw
  | int32 => some .int32Kw
  | int64 => some .int64Kw
  | uint8 => some .uint8Kw
  | uint16 => some .uint16Kw
  | uint32 => some .uint32Kw
  | uint64 => some .uint64Kw
  | _ => none

def isInteger : Datatype → Bool
  | int8 | int16 | int32 | int64 | uint8 | uint16 | uint32 | uint64 => true
  | _ => false

def isSigned : Datatype → Bool
  | int8 | int16 | int32 | int64 => true
  | _ => false

/-- The storage width: 1 for booleans, 64 for what has no narrower one. -/
def bits : Datatype → Nat
  | boolean => 1
  | int8 | uint8 => 8
  | int16 | uint16 => 16
  | int32 | uint32 => 32
  | _ => 64

/-- Wraps a 64-bit word to the width and sign of the type. A boolean collapses to 0 or 1; the
other types without a narrower width keep the word, `uint64` reading the same bits. -/
def narrow : Datatype → Int64 → Int64
  | boolean, v => if v = 0 then 0 else 1
  | int8, v => v.toInt8.toInt64
  | int16, v => v.toInt16.toInt64
  | int32, v => v.toInt32.toInt64
  | uint8, v => v.toUInt64.toUInt8.toUInt64.toInt64
  | uint16, v => v.toUInt64.toUInt16.toUInt64.toInt64
  | uint32, v => v.toUInt64.toUInt32.toUInt64.toInt64
  | _, v => v

end Datatype

/-- The type a keyword names. -/
def Keyword.datatype? : Keyword → Option Datatype
  | voidKw => some .void
  | boolKw => some .boolean
  | int8Kw => some .int8
  | int16Kw => some .int16
  | int32Kw => some .int32
  | int64Kw => some .int64
  | uint8Kw => some .uint8
  | uint16Kw => some .uint16
  | uint32Kw => some .uint32
  | uint64Kw => some .uint64
  | _ => none

/-- The type a lexeme names. -/
def Lexeme.datatype? : Lexeme → Option Datatype
  | keyword k => k.datatype?
  | _ => none

/-- The lexeme is the name of a type. -/
def Lexeme.isType (l : Lexeme) : Bool := l.datatype?.isSome

end Ember
