import Ember.Text.Glyph

namespace Ember.Text

/-- The value of a hexadecimal digit. -/
def hexValue? (c : Char) : Option Nat :=
  if '0' ≤ c ∧ c ≤ '9' then some (c.toNat - '0'.toNat)
  else if 'a' ≤ c ∧ c ≤ 'f' then some (c.toNat - 'a'.toNat + 10)
  else if 'A' ≤ c ∧ c ≤ 'F' then some (c.toNat - 'A'.toNat + 10)
  else none

/-- The byte that two hexadecimal digits stand for. -/
def hexByte? : Glyph → Glyph → Option UInt8
  | .char high, .char low => do
    return UInt8.ofNat (16 * (← hexValue? high) + (← hexValue? low))
  | _, _ => none

/-- An element of a text with percent escapes: a glyph that stands for itself, or the byte of an
escape. A mark with a meaning of its own, such as `?`, has it only in the first form. -/
inductive Percent where
  | plain (glyph : Glyph)
  | escaped (byte : UInt8)
  deriving DecidableEq

namespace Percent

/-- A character that stands for itself. -/
def mark (c : Char) : Percent := plain (.char c)

/-- Reads a text. A percent sign that two digits do not follow stands for itself. -/
def ofSource : Source → List Percent
  | [] => []
  | .char '%' :: high :: low :: rest =>
    match hexByte? high low with
    | some byte => escaped byte :: ofSource rest
    | none => mark '%' :: ofSource (high :: low :: rest)
  | glyph :: rest => plain glyph :: ofSource rest

/-- The bytes of an element. -/
def bytes : Percent → List UInt8
  | plain glyph => glyph.bytes
  | escaped byte => [byte]

/-- The text that elements stand for. -/
def toSource (text : List Percent) : Source := Source.ofBytes (text.flatMap bytes)

/-- The first percent sign that two digits do not follow, with the two bytes behind it. -/
def fault? : Source → Option Source
  | [] => none
  | .char '%' :: high :: low :: rest =>
    if (hexByte? high low).isSome then fault? rest
    else some (Source.ofBytes ((Source.bytes (.char '%' :: high :: low :: rest)).take 3))
  | .char '%' :: rest => some (.char '%' :: rest)
  | _ :: rest => fault? rest

end Percent

end Ember.Text
