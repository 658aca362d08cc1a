import Ember.Format.Fragment
import Ember.Tree

namespace Ember

namespace Expr

/-- An operator applied to operands that it does not bracket itself. -/
def isOperation : Expr → Bool
  | .binary _ _ _ _ | .assign _ _ _ => true
  | _ => false

/-- An expression that a call cannot follow directly. -/
def needsParensAsCallee : Expr → Bool
  | .binary _ _ _ _ | .assign _ _ _ | .unary _ _ _ => true
  | _ => false

/-- An operand that would be read otherwise next to an operator of the given precedence. On
the right an equal precedence is enough for that, since operators group from the left. -/
def needsParensBeside (precedence : Nat) (right : Bool) : Expr → Bool
  | .assign _ _ _ => true
  | .binary op _ _ _ => op.precedence < precedence || (right && op.precedence == precedence)
  | _ => false

end Expr

namespace Fragment

/-- Brackets the text of an expression if `needed`. -/
def parensIf (needed : Bool) (inner : List Fragment) : List Fragment :=
  if needed then parens inner else inner

def binaryOp (op : BinaryOp) : Fragment :=
  match op.mark? with
  | some m => mark m
  | none => verbatim op.spelling

end Fragment

open Fragment in
mutual

/-- The expression with the fewest parentheses that keep its meaning. Groups are kept. -/
def Expr.fragments (name : Int → String) : Expr → List Fragment
  | .literal value _ => [.literal value]
  | .var id _ => [Fragment.name (name id)]
  | .group inner _ => parens (inner.fragments name)
  | .assign target value _ =>
    target.fragments name ++ space :: mark .assign :: space :: value.fragments name
  | .unary op operand _ =>
    mark op.mark :: parensIf operand.isOperation (operand.fragments name)
  | .binary op left right _ =>
    parensIf (left.needsParensBeside op.precedence false) (left.fragments name) ++
      space :: binaryOp op :: space ::
        parensIf (right.needsParensBeside op.precedence true) (right.fragments name)
  | .call callee args _ =>
    parensIf callee.needsParensAsCallee (callee.fragments name) ++
      parens (commaSeparated (Expr.fragmentLists name args))

def Expr.fragmentLists (name : Int → String) : List Expr → List (List Fragment)
  | [] => []
  | e :: rest => e.fragments name :: Expr.fragmentLists name rest

end

open Fragment in
mutual

/-- The expression with one pair of parentheses for each operator. -/
def Expr.explicitFragments (name : Int → String) : Expr → List Fragment
  | .literal value _ => [.literal value]
  | .var id _ => [Fragment.name (name id)]
  | .group inner _ => inner.explicitFragments name
  | .assign target value _ =>
    parens (target.explicitFragments name ++
      space :: mark .assign :: space :: value.explicitFragments name)
  | .unary op operand _ => parens (mark op.mark :: operand.explicitFragments name)
  | .binary op left right _ =>
    parens (left.explicitFragments name ++
      space :: binaryOp op :: space :: right.explicitFragments name)
  | .call callee args _ =>
    callee.explicitFragments name ++
      parens (commaSeparated (Expr.explicitFragmentLists name args))

def Expr.explicitFragmentLists (name : Int → String) : List Expr → List (List Fragment)
  | [] => []
  | e :: rest => e.explicitFragments name :: Expr.explicitFragmentLists name rest

end

/-- The expression fully parenthesised. -/
def Expr.explicit (name : Int → String) (e : Expr) : String :=
  Fragment.renderAll (e.explicitFragments name)

end Ember
