import Ember.Format.Expression
import Ember.Tree.Outline

namespace Ember

def Stmt.isBlock : Stmt → Bool
  | .block _ _ => true
  | _ => false

def Stmt.isConditional : Stmt → Bool
  | .conditional _ _ _ _ => true
  | _ => false

def Stmt.isFunction : Stmt → Bool
  | .function _ _ _ _ _ _ => true
  | _ => false

def Param.fragments (name : Int → String) (p : Param) : List Fragment :=
  [.datatype p.type, .space, .name (name p.id)]

namespace Fragment

/-- The body of a conditional or loop: a block stays on the line, any other statement goes on
a line of its own, one level deeper. -/
def hanging (s : Stmt) (indent : Nat) (print : Nat → List Fragment) : List Fragment :=
  if s.isBlock then space :: print indent else newline (indent + 1) :: print (indent + 1)

/-- The other branch of a conditional. A conditional stays on the line, so that chains of them
do not move to the right. -/
def alternative (s : Stmt) (indent : Nat) (print : Nat → List Fragment) : List Fragment :=
  if s.isConditional then space :: print indent else hanging s indent print

/-- The keyword before the other branch, on the line of a block's end. -/
def beforeAlternative (body : Stmt) (indent : Nat) : List Fragment :=
  [if body.isBlock then space else newline indent, keyword .elseKw]

/-- Braces around lines, each one level deeper than the braces. -/
def braces (indent : Nat) (lines : List (List Fragment)) : List Fragment :=
  if lines.isEmpty then [mark .braceOpen, mark .braceClose]
  else
    mark .braceOpen :: lines.flatMap (newline (indent + 1) :: ·) ++
      [newline indent, mark .braceClose]

end Fragment

open Fragment in
mutual

/-- The statement from its first lexeme to its last, on lines that are indented so deep. -/
def Stmt.fragments (name : Int → String) : Stmt → (indent : Nat) → List Fragment
  | .function id params result body _ _, indent =>
    [keyword .fnKw, space, Fragment.name (name id)] ++
      parens (commaSeparated (params.map (Param.fragments name))) ++
      [mark .colon, space, datatype result, space] ++
      braces indent (Stmt.fragmentLists name body (indent + 1))
  | .var id type init _, _ =>
    [datatype type, space, Fragment.name (name id)] ++
      (match init with
        | none => []
        | some e => [space, mark .assign, space] ++ e.fragments name) ++
      [mark .semicolon]
  | .block body _, indent => braces indent (Stmt.fragmentLists name body (indent + 1))
  | .conditional cond body none _, indent =>
    [keyword .ifKw, space] ++ parens (cond.fragments name) ++
      hanging body indent (fun i => body.fragments name i)
  | .conditional cond body (some other) _, indent =>
    [keyword .ifKw, space] ++ parens (cond.fragments name) ++
      hanging body indent (fun i => body.fragments name i) ++
      beforeAlternative body indent ++
      alternative other indent (fun i => other.fragments name i)
  | .loop cond body _, indent =>
    [keyword .whileKw, space] ++ parens (cond.fragments name) ++
      hanging body indent (fun i => body.fragments name i)
  | .returning value _, _ =>
    keyword .returnKw ::
      (match value with
        | none => []
        | some e => space :: e.fragments name) ++
      [mark .semicolon]
  | .expr e _, _ => e.fragments name ++ [mark .semicolon]

def Stmt.fragmentLists (name : Int → String) : List Stmt → (indent : Nat) → List (List Fragment)
  | [], _ => []
  | s :: rest, indent => s.fragments name indent :: Stmt.fragmentLists name rest indent

end

/-- The statements of a program, each on lines of its own, with an empty line after each
function but the last statement. -/
def Stmt.programFragments (name : Int → String) : List Stmt → List Fragment
  | [] => []
  | [s] => s.fragments name 0 ++ [.newline 0]
  | s :: rest =>
    s.fragments name 0 ++ (if s.isFunction then [.newline 0, .newline 0] else [.newline 0]) ++
      Stmt.programFragments name rest

/-- The program in its canonical form. -/
def Program.format (name : Int → String) (p : Program) : String :=
  Fragment.renderAll (Stmt.programFragments name p.body)

mutual

/-- The expressions that stand as statements inside a statement. -/
def Stmt.expressions : Stmt → List Expr
  | .function _ _ _ body _ _ => Stmt.allExpressions body
  | .block body _ => Stmt.allExpressions body
  | .conditional _ body none _ => body.expressions
  | .conditional _ body (some other) _ => body.expressions ++ other.expressions
  | .loop _ body _ => body.expressions
  | .expr e _ => [e]
  | .var _ _ _ _ | .returning _ _ => []

def Stmt.allExpressions : List Stmt → List Expr
  | [] => []
  | s :: rest => s.expressions ++ Stmt.allExpressions rest

end

/-- The expression statements of a program in source order, fully parenthesised. -/
def Program.explicitExpressions (name : Int → String) (p : Program) : List String :=
  (Stmt.allExpressions p.body).map (Expr.explicit name)

/-- The report about the first symbol in the expression statements that is none of the
table. -/
def Program.expressionBreach? (table : SymbolTable) (p : Program) : Option String :=
  Entry.breach? table ((Stmt.allExpressions p.body).flatMap fun e => e.outline.entries)

end Ember
