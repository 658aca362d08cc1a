import Ember.Proofs.Grammar.Program

namespace Ember.Grammar

/-- How many copied targets stand inside one another. The parser copies the target of a compound
assignment. -/
def Phrase.copies : {l : Level} → Phrase l → Nat
  | _, .named _ _ | _, .truth _ _ | _, .integer _ _ => 0
  | _, .group _ inner _ => inner.copies
  | _, .plain inner => inner.copies
  | _, .callEmpty callee _ _ => callee.copies
  | _, .callWith callee _ args _ => max callee.copies args.copies
  | _, .operand inner => inner.copies
  | _, .operator _ _ _ inner _ => inner.copies
  | _, .lone inner => inner.copies
  | _, .tighter inner => inner.copies
  | _, .chain left _ _ _ right _ => max left.copies right.copies
  | _, .simple inner => inner.copies
  | _, .assign target _ .plain _ value _ => max target.copies value.copies
  | _, .assign target _ (.compound _) _ value _ => max (target.copies + 1) value.copies
  | _, .argument inner => inner.copies
  | _, .another before _ last => max before.copies last.copies

/-- The copied targets in an expression that may be absent. -/
def Phrase.optionCopies (e : Option (Phrase .expression)) : Nat := (e.map Phrase.copies).getD 0

def Declarator.copies (d : Declarator) : Nat := Phrase.optionCopies (d.init.map (·.2))

def Declarators.copies : Declarators → Nat
  | one d => d.copies
  | another before _ d => max before.copies d.copies

def ForInit.copies : ForInit → Nat
  | absent => 0
  | vars v => v.declarators.copies
  | expression e => e.copies

/-- How many copied bodies and targets stand inside one another. The parser copies the body of a
loop with its test behind it. -/
def Clause.copies : {r : Role} → Clause r → Nat
  | _, .block _ body _ => body.copies
  | _, .ifThen _ _ cond _ body => max cond.copies body.copies
  | _, .ifElse _ _ cond _ body _ other => max cond.copies (max body.copies other.copies)
  | _, .doWhile _ body _ _ cond _ _ => max (body.copies + 1) cond.copies
  | _, .forLoop _ _ init _ cond _ step _ body =>
    max init.copies (max (Phrase.optionCopies cond) (max (Phrase.optionCopies step) body.copies))
  | _, .whileLoop _ _ cond _ body => max cond.copies body.copies
  | _, .returning _ value _ => Phrase.optionCopies value
  | _, .expr e _ => e.copies
  | _, .vars v _ => v.declarators.copies
  | _, .single s => s.copies
  | _, .nothing => 0
  | _, .another before last => max before.copies last.copies

def Declaration.copies : Declaration → Nat
  | function f => f.body.copies
  | entry e => e.copies

/-- How many copied bodies and targets stand inside one another. -/
def Module.copies : Module → Nat
  | nothing => 0
  | another before last => max before.copies last.copies

/-- The parentheses that an expression of the level needs around it to be the target of another
assignment. -/
def Level.parens : Level → Nat
  | .expression | .arguments => 2
  | .binary _ | .unary | .call | .primary => 0

theorem Phrase.length_tokens_pos {l : Level} (e : Phrase l) : 0 < e.tokens.length :=
  List.length_pos_iff.2 e.tokens_ne_nil

/-- A copied target takes four tokens: an operator, a value, and the parentheses that make a target
of what has a copied target itself. -/
theorem Phrase.copies_lt {l : Level} (e : Phrase l) :
    4 * e.copies < e.tokens.length + l.parens := by
  induction e with
  | named | truth | integer => simp [copies, tokens, Level.parens]
  | group opening inner closing ih =>
    simp only [copies, tokens, Level.parens, List.length_cons, List.length_append] at ih ⊢
    omega
  | plain | operand | lone | tighter => assumption
  | operator mark op loc inner listed ih =>
    simp only [copies, tokens, Level.parens, List.length_cons] at ih ⊢
    omega
  | callEmpty callee opening closing ih =>
    simp only [copies, tokens, Level.parens, List.length_append] at ih ⊢
    omega
  | callWith callee opening args closing ih ihArgs =>
    simp only [copies, tokens, Level.parens, List.length_cons, List.length_append] at ih ihArgs ⊢
    omega
  | chain left mark op loc right listed ih ihRight =>
    simp only [copies, tokens, Level.parens, List.length_cons, List.length_append] at ih ihRight ⊢
    omega
  | simple inner ih =>
    simp only [copies, tokens, Level.parens] at ih ⊢
    omega
  | assign target mark op loc value listed ih ihValue =>
    have hvalue := value.length_tokens_pos
    cases op with
    | plain | compound =>
      simp only [copies, tokens, Level.parens, List.length_cons, List.length_append] at ih ihValue ⊢
      omega
  | argument inner ih => exact ih
  | another before comma last ih ihLast =>
    simp only [copies, tokens, Level.parens, List.length_cons, List.length_append] at ih ihLast ⊢
    omega

theorem Phrase.copies_le (e : Phrase .expression) : 4 * e.copies ≤ e.tokens.length + 1 :=
  Nat.le_of_lt_succ e.copies_lt

theorem Phrase.optionCopies_le (e : Option (Phrase .expression)) :
    4 * Phrase.optionCopies e ≤ (Phrase.optionTokens e).length + 1 := by
  cases e with
  | none => exact Nat.zero_le _
  | some e => exact e.copies_le

theorem Declarator.copies_le (d : Declarator) : 4 * d.copies ≤ d.tokens.length := by
  unfold copies tokens
  cases d.init with
  | none => exact Nat.zero_le _
  | some init =>
    have hinit := init.2.copies_le
    simp only [Phrase.optionCopies, Option.map_some, Option.getD_some, List.length_cons]
    omega

theorem Declarators.copies_le (ds : Declarators) : 4 * ds.copies ≤ ds.tokens.length := by
  induction ds with
  | one d => exact d.copies_le
  | another before comma d ih =>
    have hlast := d.copies_le
    simp only [copies, tokens, List.length_append, List.length_cons]
    omega

theorem ForInit.copies_le (i : ForInit) : 4 * i.copies ≤ i.tokens.length + 1 := by
  cases i with
  | absent => exact Nat.zero_le _
  | vars v =>
    have hvars := v.declarators.copies_le
    simp only [copies, tokens, Variables.tokens, List.length_cons]
    omega
  | expression e => exact e.copies_le

theorem Clause.copies_le {r : Role} (c : Clause r) : 4 * c.copies ≤ c.tokens.length := by
  induction c with
  | block opening body closing ih =>
    simp only [copies, tokens, List.length_cons, List.length_append]
    omega
  | ifThen loc opening cond closing body ih =>
    have hcond := cond.copies_le
    simp only [copies, tokens, List.length_cons, List.length_append]
    omega
  | ifElse loc opening cond closing body elseLoc other ih ihOther =>
    have hcond := cond.copies_le
    simp only [copies, tokens, List.length_cons, List.length_append]
    omega
  | doWhile loc body whileLoc opening cond closing semicolon ih =>
    have hcond := cond.copies_le
    simp only [copies, tokens, List.length_cons, List.length_append]
    omega
  | forLoop loc opening init afterInit cond afterCond step closing body ih =>
    have hinit := init.copies_le
    have hcond := Phrase.optionCopies_le cond
    have hstep := Phrase.optionCopies_le step
    simp only [copies, tokens, List.length_cons, List.length_append]
    omega
  | whileLoop loc opening cond closing body ih =>
    have hcond := cond.copies_le
    simp only [copies, tokens, List.length_cons, List.length_append]
    omega
  | returning loc value semicolon =>
    have hvalue := Phrase.optionCopies_le value
    simp only [copies, tokens, List.length_cons, List.length_append]
    omega
  | expr e semicolon =>
    rw [tokens, List.length_append]
    exact e.copies_le
  | vars v semicolon =>
    have hvars := v.declarators.copies_le
    simp only [copies, tokens, Variables.tokens, List.length_cons, List.length_append]
    omega
  | single s ih => exact ih
  | nothing => exact Nat.zero_le _
  | another before last ih ihLast =>
    simp only [copies, tokens, List.length_append]
    omega

theorem Declaration.copies_le (d : Declaration) : 4 * d.copies ≤ d.tokens.length := by
  cases d with
  | function f =>
    have hbody := f.body.copies_le
    simp only [copies, tokens, Function.tokens, List.length_cons, List.length_append]
    omega
  | entry e => exact e.copies_le

/-- Copied parts that stand inside one another take four tokens each. -/
theorem Module.copies_le (m : Module) : 4 * m.copies ≤ m.tokens.length := by
  induction m with
  | nothing => exact Nat.zero_le _
  | another before last ih =>
    have hlast := last.copies_le
    simp only [copies, tokens, List.length_append]
    omega

end Ember.Grammar
