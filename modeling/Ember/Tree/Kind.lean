import Ember.Tree

namespace Ember

/-- The kinds of nodes of a tree. -/
inductive NodeKind where
  | program | param | function | varDecl | block | conditional | loop | returning | exprStmt
  | assign | binary | unary | call | group | var | literal
  deriving DecidableEq, Repr

def NodeKind.name : NodeKind → String
  | program => "Module"
  | param => "Param"
  | function => "FunctionDecl"
  | varDecl => "VariableDecl"
  | block => "BlockStmt"
  | conditional => "ConditionalStmt"
  | loop => "LoopStmt"
  | returning => "ReturnStmt"
  | exprStmt => "ExprStmt"
  | assign => "AssignExpr"
  | binary => "BinaryExpr"
  | unary => "UnaryExpr"
  | call => "CallExpr"
  | group => "GroupExpr"
  | var => "VariableExpr"
  | literal => "LiteralExpr"

def Expr.kind : Expr → NodeKind
  | .assign _ _ _ => .assign
  | .binary _ _ _ _ => .binary
  | .unary _ _ _ => .unary
  | .call _ _ _ => .call
  | .group _ _ => .group
  | .var _ _ => .var
  | .literal _ _ => .literal

end Ember
