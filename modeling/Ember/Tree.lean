import Ember.Location
import Ember.Tree.Literal
import Ember.Tree.Operator

namespace Ember

/-- Expressions. Names are entries of a symbol table. Groups are the parentheses written in
the source. -/
inductive Expr where
  | assign (target value : Expr) (loc : Location)
  | binary (op : BinaryOp) (left right : Expr) (loc : Location)
  | unary (op : UnaryOp) (operand : Expr) (loc : Location)
  | call (callee : Expr) (args : List Expr) (loc : Location)
  | group (inner : Expr) (loc : Location)
  | var (id : Int) (loc : Location)
  | literal (value : Literal) (loc : Location)

instance : Inhabited Expr := ⟨.var 0 .none⟩

def Expr.loc : Expr → Location
  | .assign _ _ loc | .binary _ _ _ loc | .unary _ _ loc | .call _ _ loc | .group _ loc
  | .var _ loc | .literal _ loc => loc

/-- The expression inside any number of parentheses. -/
def Expr.unparen : Expr → Expr
  | .group inner _ => inner.unparen
  | e => e

/-- A parameter of a function. -/
structure Param where
  id : Int
  type : Datatype
  loc : Location
  deriving DecidableEq

/-- Statements. `loop` is the only loop; the other loops of the language are expressed by
it. A declaration of several names is as many `var`s. -/
inductive Stmt where
  | function (id : Int) (params : List Param) (result : Datatype) (body : List Stmt)
      (bodyLoc : Location) (loc : Location)
  | var (id : Int) (type : Datatype) (init : Option Expr) (loc : Location)
  | block (body : List Stmt) (loc : Location)
  | conditional (cond : Expr) (body : Stmt) (alternative : Option Stmt) (loc : Location)
  | loop (cond : Expr) (body : Stmt) (loc : Location)
  | returning (value : Option Expr) (loc : Location)
  | expr (e : Expr) (loc : Location)

instance : Inhabited Stmt := ⟨.block [] .none⟩

def Stmt.loc : Stmt → Location
  | .function _ _ _ _ _ loc | .var _ _ _ loc | .block _ loc | .conditional _ _ _ loc
  | .loop _ _ loc | .returning _ loc | .expr _ loc => loc

/-- A source file as a tree. -/
structure Program where
  file : String
  body : List Stmt

end Ember
