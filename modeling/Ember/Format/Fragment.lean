import Ember.Datatype
import Ember.Tree.Literal

namespace Ember

/-- A part of a printed text. All of a program is lexemes and the blanks between them;
`verbatim` is what a tree can hold and no source text can. -/
inductive Fragment where
  | lexeme (l : Lexeme)
  | verbatim (text : String)
  | space
  /-- The end of a line, and the blanks that begin the next one. -/
  | newline (indent : Nat)
  deriving DecidableEq

namespace Fragment

/-- One level of indentation is two blanks. -/
def indentation (indent : Nat) : String := String.ofList (List.replicate (2 * indent) ' ')

def render : Fragment → String
  | lexeme l => l.spelling
  | verbatim text => text
  | space => " "
  | newline indent => "\n" ++ indentation indent

/-- The text of a row of fragments. -/
def renderAll (fragments : List Fragment) : String := String.join (fragments.map render)

@[simp] theorem renderAll_nil : renderAll [] = "" := rfl

theorem renderAll_cons (f : Fragment) (rest : List Fragment) :
    renderAll (f :: rest) = f.render ++ renderAll rest := by
  simp [renderAll]

theorem renderAll_append (a b : List Fragment) :
    renderAll (a ++ b) = renderAll a ++ renderAll b := by
  simp [renderAll]

def mark (m : Mark) : Fragment := .lexeme (.mark m)

def keyword (k : Keyword) : Fragment := .lexeme (.keyword k)

def name (name : String) : Fragment := .lexeme (.identifier name)

def datatype (type : Datatype) : Fragment :=
  match type.keyword? with
  | some k => keyword k
  | none => verbatim type.name

/-- A number as a source text can hold it. -/
def number (n : Nat) : Fragment := .lexeme (.integer (toString n))

def truth (b : Bool) : Fragment := keyword (if b then .trueKw else .falseKw)

def literal : Literal → Fragment
  | .int v => if 0 ≤ v then number v.toNatClampNeg else verbatim (Literal.render (.int v))
  | .uint v => number v.toNat
  | .bool b => truth b
  | l => verbatim l.render

/-- Fragments in parentheses. -/
def parens (inner : List Fragment) : List Fragment :=
  mark .parenOpen :: inner ++ [mark .parenClose]

/-- The items of a list, a comma and a space between each two. -/
def commaSeparated : List (List Fragment) → List Fragment
  | [] => []
  | [item] => item
  | item :: rest => item ++ mark .comma :: space :: commaSeparated rest

end Fragment

end Ember
