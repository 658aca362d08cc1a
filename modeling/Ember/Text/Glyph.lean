namespace Ember

/-- One unit of a source text: a character, or a byte that begins no valid UTF-8 sequence. -/
inductive Glyph where
  | char (c : Char)
  | stray (byte : UInt8)
  deriving DecidableEq, Repr

/-- A source text. Every byte string is exactly one list of glyphs. -/
abbrev Source := List Glyph

namespace Glyph

/-- What the glyph counts as when it is read or shown: a stray byte is U+FFFD. -/
def toChar : Glyph → Char
  | char c => c
  | stray _ => '\uFFFD'

/-- The number of bytes the glyph takes. -/
def width : Glyph → Nat
  | char c => c.utf8Size
  | stray _ => 1

/-- The bytes of the glyph. -/
def bytes : Glyph → List UInt8
  | char c => String.utf8EncodeChar c
  | stray b => [b]

end Glyph

namespace Source

/-- The value carried by a continuation byte `10xxxxxx`. -/
def continuation? (b : UInt8) : Option Nat :=
  if 0x80 ≤ b ∧ b < 0xc0 then some (b.toNat - 0x80) else none

/-- The character with code point `n`, provided that its own encoding has `size` bytes. This
rules out overlong forms, surrogates and code points past the last one. -/
def scalar? (size n : Nat) : Option Char :=
  if n.isValidChar ∧ (Char.ofNat n).utf8Size = size then some (Char.ofNat n) else none

/-- The character whose encoding begins with the byte `b` and goes on into `rest`. -/
def leading? (b : UInt8) (rest : List UInt8) : Option Char :=
  if b < 0x80 then some (Char.ofNat b.toNat)
  else if 0xc0 ≤ b ∧ b < 0xe0 then
    match rest with
    | b₁ :: _ => do
      let x ← continuation? b₁
      scalar? 2 ((b.toNat - 0xc0) * 0x40 + x)
    | [] => none
  else if 0xe0 ≤ b ∧ b < 0xf0 then
    match rest with
    | b₁ :: b₂ :: _ => do
      let x ← continuation? b₁
      let y ← continuation? b₂
      scalar? 3 ((b.toNat - 0xe0) * 0x1000 + x * 0x40 + y)
    | _ => none
  else if 0xf0 ≤ b ∧ b < 0xf8 then
    match rest with
    | b₁ :: b₂ :: b₃ :: _ => do
      let x ← continuation? b₁
      let y ← continuation? b₂
      let z ← continuation? b₃
      scalar? 4 ((b.toNat - 0xf0) * 0x40000 + x * 0x1000 + y * 0x40 + z)
    | _ => none
  else none

/-- Decodes bytes of which the first `skip` belong to a character already read. -/
def decodeFrom (skip : Nat) : List UInt8 → Source
  | [] => []
  | b :: rest =>
    match skip with
    | skip + 1 => decodeFrom skip rest
    | 0 =>
      match leading? b rest with
      | some c => .char c :: decodeFrom (c.utf8Size - 1) rest
      | none => .stray b :: decodeFrom 0 rest

/-- The source text with the given bytes. -/
def ofBytes (bytes : List UInt8) : Source := decodeFrom 0 bytes

/-- The source text with the given characters. -/
def ofString (text : String) : Source := text.toList.map .char

/-- The bytes of a source text. -/
def bytes (source : Source) : List UInt8 := source.flatMap Glyph.bytes

/-- The text as it is shown, stray bytes as U+FFFD. -/
def toString (source : Source) : String := String.ofList (source.map Glyph.toChar)

/-- The number of bytes of a source text. -/
def width (source : Source) : Nat := source.foldr (fun g n => g.width + n) 0

end Source

end Ember
