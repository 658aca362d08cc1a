import Ember.Parser.Expression
import Mathlib.Data.Nat.Digits.Defs

namespace Ember

namespace Grammar

/-- The number that decimal digits stand for, the last of them for the ones. -/
def numeral (digits : String) : Nat :=
  Nat.ofDigits 10 (digits.toList.reverse.map fun c => c.toNat - '0'.toNat)

theorem numeral_eq (digits : String) : numeral digits = Parser.decimal digits := by
  rw [numeral, Nat.ofDigits_eq_foldr, List.foldr_map, List.foldr_reverse, Parser.decimal]
  congr 1
  funext n c
  exact Nat.add_comm _ _

end Grammar

/-- An integer that a word can hold; other lexemes are always in range. -/
def Token.InRange (t : Token) : Prop :=
  ∀ digits, t.lexeme = .integer digits → Grammar.numeral digits < 18446744073709551616

namespace Grammar

/-- The operators between two operands, with the marks that spell them. Those for equality bind
loosest, and after them those for order, for sums and for products. -/
def operators : Nat → List (Mark × BinaryOp)
  | 1 => [(.equal, .eq), (.notEqual, .ne)]
  | 2 => [(.less, .lt), (.greater, .gt), (.lessEqual, .le), (.greaterEqual, .ge)]
  | 3 => [(.plus, .add), (.minus, .sub)]
  | 4 => [(.star, .mul), (.slash, .div), (.percent, .mod)]
  | _ => []

/-- The operators before one operand. -/
def signs : List (Mark × UnaryOp) := [(.minus, .neg), (.bang, .not)]

/-- The ways to assign. -/
def assignments : List (Mark × AssignOp) :=
  [(.assign, .plain), (.plusAssign, .compound .add), (.minusAssign, .compound .sub),
    (.starAssign, .compound .mul), (.slashAssign, .compound .div), (.percentAssign, .compound .mod)]

theorem mem_operators {p : Nat} {mark : Mark} {op : BinaryOp} :
    (mark, op) ∈ operators p ↔ mark.binaryOp? = some op ∧ op.precedence = p := by
  constructor
  · intro h
    have hall : ∀ x ∈ operators p, x.1.binaryOp? = some x.2 ∧ x.2.precedence = p := by
      match p with
      | 1 | 2 | 3 | 4 => decide
      | 0 | _ + 5 => exact nofun
    exact hall _ h
  · rintro ⟨hop, rfl⟩
    cases mark <;> cases hop <;> decide

theorem mem_signs {mark : Mark} {op : UnaryOp} :
    (mark, op) ∈ signs ↔ mark.unaryOp? = some op := by
  cases mark <;> cases op <;> decide

theorem mem_assignments {mark : Mark} {op : AssignOp} :
    (mark, op) ∈ assignments ↔ mark.assignOp? = some op := by
  constructor
  · intro h
    have hall : ∀ x ∈ assignments, x.1.assignOp? = some x.2 := by decide
    exact hall _ h
  · intro h
    cases mark <;> cases h <;> decide

/-- The nonterminals of expressions, the loosest first. `binary p` joins operands by operators
of precedence `p`, and above the highest precedence it is a single operand. `arguments` are one
expression or more, with commas between them. -/
inductive Level where
  | expression
  | binary (precedence : Nat)
  | unary
  | call
  | primary
  | arguments

/-- What a nonterminal stands for in the tree of a program. -/
abbrev Level.Tree : Level → Type
  | .arguments => List Expr
  | _ => Expr

/-- Derivations of expressions: each constructor is a production, and its locations are those
of the terminals that carry no text of their own. -/
inductive Phrase : Level → Type where
  | named (name : String) (loc : Location) : Phrase .primary
  | truth (b : Bool) (loc : Location) : Phrase .primary
  | integer (digits : String) (loc : Location) : Phrase .primary
  | group (opening : Location) (inner : Phrase .expression) (closing : Location) : Phrase .primary
  | plain (inner : Phrase .primary) : Phrase .call
  | callEmpty (callee : Phrase .call) (opening closing : Location) : Phrase .call
  | callWith (callee : Phrase .call) (opening : Location) (args : Phrase .arguments)
      (closing : Location) : Phrase .call
  | operand (inner : Phrase .call) : Phrase .unary
  | operator (mark : Mark) (op : UnaryOp) (loc : Location) (inner : Phrase .unary)
      (listed : (mark, op) ∈ signs) : Phrase .unary
  | lone (inner : Phrase .unary) : Phrase (.binary 5)
  | tighter {p : Nat} (inner : Phrase (.binary (p + 1))) : Phrase (.binary p)
  | chain {p : Nat} (left : Phrase (.binary p)) (mark : Mark) (op : BinaryOp) (loc : Location)
      (right : Phrase (.binary (p + 1))) (listed : (mark, op) ∈ operators p) : Phrase (.binary p)
  | simple (inner : Phrase (.binary 1)) : Phrase .expression
  | assign (target : Phrase (.binary 1)) (mark : Mark) (op : AssignOp) (loc : Location)
      (value : Phrase .expression) (listed : (mark, op) ∈ assignments) : Phrase .expression
  | argument (inner : Phrase .expression) : Phrase .arguments
  | another (before : Phrase .arguments) (comma : Location) (last : Phrase .expression) :
      Phrase .arguments

/-- The literal of a number that is in range. -/
def literalOf (n : Nat) : Literal :=
  if n < 9223372036854775808 then .int (Int64.ofNat n) else .uint (UInt64.ofNat n)

theorem integerLiteral?_decimal (digits : String) :
    Parser.integerLiteral? (Parser.decimal digits) =
      if numeral digits < 18446744073709551616 then some (literalOf (numeral digits)) else none := by
  rw [← numeral_eq]
  unfold Parser.integerLiteral? literalOf
  split
  · rw [if_pos (by omega)]
  · rfl

/-- What an assignment stores: a compound one combines a copy of its target with its value. -/
def stored (target value : Expr) (loc : Location) : AssignOp → Expr
  | .plain => value
  | .compound op => .binary op target value loc

theorem stored_eq (op : AssignOp) (target value : Expr) (loc : Location) :
    stored target value loc op = Parser.assigned op target value loc := by
  cases op <;> rfl

namespace Phrase

/-- The tokens that a derivation derives. -/
def tokens : {l : Level} → Phrase l → List Token
  | _, .named name loc => [⟨.identifier name, loc⟩]
  | _, .truth b loc => [⟨.keyword (if b then .trueKw else .falseKw), loc⟩]
  | _, .integer digits loc => [⟨.integer digits, loc⟩]
  | _, .group opening inner closing =>
    ⟨.mark .parenOpen, opening⟩ :: (inner.tokens ++ [⟨.mark .parenClose, closing⟩])
  | _, .plain inner => inner.tokens
  | _, .callEmpty callee opening closing =>
    callee.tokens ++ [⟨.mark .parenOpen, opening⟩, ⟨.mark .parenClose, closing⟩]
  | _, .callWith callee opening args closing =>
    callee.tokens ++
      ⟨.mark .parenOpen, opening⟩ :: (args.tokens ++ [⟨.mark .parenClose, closing⟩])
  | _, .operand inner => inner.tokens
  | _, .operator mark _ loc inner _ => ⟨.mark mark, loc⟩ :: inner.tokens
  | _, .lone inner => inner.tokens
  | _, .tighter inner => inner.tokens
  | _, .chain left mark _ loc right _ => left.tokens ++ ⟨.mark mark, loc⟩ :: right.tokens
  | _, .simple inner => inner.tokens
  | _, .assign target mark _ loc value _ => target.tokens ++ ⟨.mark mark, loc⟩ :: value.tokens
  | _, .argument inner => inner.tokens
  | _, .another before comma last => before.tokens ++ ⟨.mark .comma, comma⟩ :: last.tokens

theorem tokens_ne_nil {l : Level} (e : Phrase l) : e.tokens ≠ [] := by
  induction e <;> simp_all [tokens]

/-- The tree of a derivation whose names are entered into a table, and the table with them. -/
def build : {l : Level} → Phrase l → SymbolTable → l.Tree × SymbolTable
  | _, .named name loc, t => (.var (t.add name .empty).1 loc, (t.add name .empty).2)
  | _, .truth b loc, t => (.literal (.bool b) loc, t)
  | _, .integer digits loc, t => (.literal (literalOf (numeral digits)) loc, t)
  | _, .group opening inner _, t => (.group (inner.build t).1 opening, (inner.build t).2)
  | _, .plain inner, t => inner.build t
  | _, .callEmpty callee _ _, t =>
    (.call (callee.build t).1 [] (Expr.loc (callee.build t).1), (callee.build t).2)
  | _, .callWith callee _ args _, t =>
    let f := callee.build t
    (.call f.1 (args.build f.2).1 (Expr.loc f.1), (args.build f.2).2)
  | _, .operand inner, t => inner.build t
  | _, .operator _ op loc inner _, t => (.unary op (inner.build t).1 loc, (inner.build t).2)
  | _, .lone inner, t => inner.build t
  | _, .tighter inner, t => inner.build t
  | _, .chain left _ op loc right _, t =>
    let a := left.build t
    (.binary op a.1 (right.build a.2).1 loc, (right.build a.2).2)
  | _, .simple inner, t => inner.build t
  | _, .assign target _ op loc value _, t =>
    let a := target.build t
    let b := value.build a.2
    (.assign a.1 (stored a.1 b.1 loc op) (Expr.loc a.1), b.2)
  | _, .argument inner, t => ([(inner.build t).1], (inner.build t).2)
  | _, .another before _ last, t =>
    let a := before.build t
    (a.1 ++ [(last.build a.2).1], (last.build a.2).2)

/-- How many operands stand inside each other. -/
def depth : {l : Level} → Phrase l → Nat
  | _, .named _ _ | _, .truth _ _ | _, .integer _ _ => 0
  | _, .group _ inner _ => inner.depth
  | _, .plain inner => inner.depth
  | _, .callEmpty callee _ _ => callee.depth
  | _, .callWith callee _ args _ => max callee.depth args.depth
  | _, .operand inner => inner.depth + 1
  | _, .operator _ _ _ inner _ => inner.depth + 1
  | _, .lone inner => inner.depth
  | _, .tighter inner => inner.depth
  | _, .chain left _ _ _ right _ => max left.depth right.depth
  | _, .simple inner => inner.depth
  | _, .assign target _ _ _ value _ => max target.depth value.depth
  | _, .argument inner => inner.depth
  | _, .another before _ last => max before.depth last.depth

attribute [grind =] tokens build depth

end Phrase

end Grammar

end Ember
