import Ember.Text.Glyph
import Ember.Text.Printable

namespace Ember.Text

/-- The digits of a number in base 16, filled up with zeros to the given width. -/
def hex (width n : Nat) : String :=
  let digits := Nat.toDigits 16 n
  String.ofList (List.replicate (width - digits.length) '0' ++ digits)

/-- A character between double quotes. What cannot be seen is written as an escape: one
letter where there is one, else the code point in 2, 4 or 8 hexadecimal digits. -/
def quoteChar (c : Char) : String :=
  if c = '"' ∨ c = '\\' then "\\" ++ c.toString
  else if isPrintable c then c.toString
  else
    match c.toNat with
    | 0x07 => "\\a"
    | 0x08 => "\\b"
    | 0x09 => "\\t"
    | 0x0a => "\\n"
    | 0x0b => "\\v"
    | 0x0c => "\\f"
    | 0x0d => "\\r"
    | n =>
      if n < 0x20 ∨ n = 0x7f then "\\x" ++ hex 2 n
      else if n < 0x10000 then "\\u" ++ hex 4 n
      else "\\U" ++ hex 8 n

/-- The text between double quotes. -/
def quote (text : String) : String :=
  "\"" ++ String.join (text.toList.map quoteChar) ++ "\""

/-- A glyph between double quotes; a stray byte is written in two hexadecimal digits. -/
def quoteGlyph : Glyph → String
  | .char c => quoteChar c
  | .stray b => "\\x" ++ hex 2 b.toNat

/-- A text that may hold stray bytes, between double quotes. -/
def quoteSource (text : Source) : String :=
  "\"" ++ String.join (text.map quoteGlyph) ++ "\""

end Ember.Text
