import Ember.Proofs.Format.Brackets
import Ember.Proofs.Format.Shape

namespace Ember

namespace Fragment

def lexeme? : Fragment → Option Lexeme
  | lexeme l => some l
  | _ => none

/-- The lexemes of a row of fragments. -/
def lexemes (fs : List Fragment) : List Lexeme := fs.filterMap lexeme?

@[simp] theorem lexemes_nil : lexemes [] = [] := rfl

@[simp] theorem lexemes_append (a b : List Fragment) :
    lexemes (a ++ b) = lexemes a ++ lexemes b := List.filterMap_append

@[simp] theorem lexemes_mark (m : Mark) (rest : List Fragment) :
    lexemes (mark m :: rest) = .mark m :: lexemes rest := rfl

@[simp] theorem lexemes_keyword (k : Keyword) (rest : List Fragment) :
    lexemes (keyword k :: rest) = .keyword k :: lexemes rest := rfl

@[simp] theorem lexemes_name (n : String) (rest : List Fragment) :
    lexemes (name n :: rest) = .identifier n :: lexemes rest := rfl

@[simp] theorem lexemes_space (rest : List Fragment) :
    lexemes (space :: rest) = lexemes rest := rfl

@[simp] theorem lexemes_newline (indent : Nat) (rest : List Fragment) :
    lexemes (newline indent :: rest) = lexemes rest := rfl

@[simp] theorem lexemes_parens (inner : List Fragment) :
    lexemes (parens inner) = .mark .parenOpen :: (lexemes inner ++ [.mark .parenClose]) := by
  simp [parens]

theorem commaSeparated_cons (item : List Fragment) (rest : List (List Fragment)) :
    commaSeparated (item :: rest) = item ++ rest.flatMap fun i => mark .comma :: space :: i := by
  induction rest generalizing item with
  | nil => simp [commaSeparated]
  | cons next rest ih => simp [commaSeparated, ih]

/-- A constant is printed as one lexeme. -/
theorem literal_literalOf {n : Nat} (hn : n < 18446744073709551616) :
    literal (Grammar.literalOf n) = number n := by
  unfold Grammar.literalOf
  split
  · rename_i hsigned
    have hnonneg : (0 : Int64) ≤ Int64.ofNat n := by
      rw [Int64.le_iff_toInt_le, Int64.toInt_ofNat_of_lt hsigned]
      exact Int.natCast_nonneg n
    have hclamp : (Int64.ofNat n).toNatClampNeg = n := Int64.toNatClampNeg_ofNat_of_lt hsigned
    simp only [literal, if_pos hnonneg, hclamp]
  · have hvalue : (UInt64.ofNat n).toNat = n := UInt64.toNat_ofNat_of_lt hn
    simp only [literal, hvalue]

end Fragment

namespace Grammar

theorem numeral_toString (n : Nat) : numeral (toString n) = n := by
  have hdigits : (toString n).toList = Nat.toDigits 10 n := Nat.toList_repr
  have hvalue := Nat.ofDigitChars_ten_toDigits (n := n)
  rw [Nat.ofDigitChars_eq_foldl] at hvalue
  rw [numeral_eq, Parser.decimal, hdigits]
  exact hvalue

theorem exists_of_map_cons {ts : List Token} {l : Lexeme} {ls : List Lexeme}
    (h : ts.map (·.lexeme) = l :: ls) :
    ∃ loc ts', ts = ⟨l, loc⟩ :: ts' ∧ ts'.map (·.lexeme) = ls := by
  obtain ⟨⟨l', loc⟩, ts', rfl, rfl, hrest⟩ := List.map_eq_cons_iff.1 h
  exact ⟨loc, ts', rfl, hrest⟩

/-- Two trees with the same names, up to the ids of these and up to their places. -/
def Level.Alike (name name' : Int → String) : (l : Level) → l.Tree → l.Tree → Prop
  | .arguments, es, es' => Expr.AlikeAll (SameText name name') Anywhere es es'
  | .expression, e, e' | .binary _, e, e' | .unary, e, e' | .call, e, e' | .primary, e, e' =>
    Expr.Alike (SameText name name') Anywhere e e'

/-- In every table that keeps the names of the derivation, its tree is the given one. -/
def Phrase.Gives (name : Int → String) {l : Level} (e : Phrase l) (x : l.Tree) : Prop :=
  ∀ t {t' : SymbolTable}, (e.build t).2.Keeps t' → l.Alike t'.nameOf name (e.build t).1 x

/-- Tokens of the given lexemes have a derivation of the given tree, wherever they stand. -/
def Derives (name : Int → String) (l : Level) (ls : List Lexeme) (x : l.Tree) : Prop :=
  ∀ ts : List Token, ts.map (·.lexeme) = ls → ∃ e : Phrase l, e.tokens = ts ∧ e.Gives name x

namespace Derives

variable {name : Int → String} {ls ls' : List Lexeme} {x y : Expr}

theorem named (id : Int) (place : Location) :
    Derives name .primary [.identifier (name id)] (.var id place) := by
  intro ts hts
  obtain ⟨loc, ts, rfl, hnil⟩ := exists_of_map_cons hts
  rw [List.map_eq_nil_iff.1 hnil]
  exact ⟨.named (name id) loc, rfl, fun _ _ hkeeps => .var hkeeps.nameOf_add trivial⟩

theorem truth (b : Bool) (place : Location) :
    Derives name .primary [.keyword (if b then .trueKw else .falseKw)]
      (.literal (.bool b) place) := by
  intro ts hts
  obtain ⟨loc, ts, rfl, hnil⟩ := exists_of_map_cons hts
  rw [List.map_eq_nil_iff.1 hnil]
  exact ⟨.truth b loc, rfl, fun _ _ _ => .literal trivial⟩

theorem integer (digits : String) (place : Location) :
    Derives name .primary [.integer digits]
      (.literal (literalOf (numeral digits)) place) := by
  intro ts hts
  obtain ⟨loc, ts, rfl, hnil⟩ := exists_of_map_cons hts
  rw [List.map_eq_nil_iff.1 hnil]
  exact ⟨.integer digits loc, rfl, fun _ _ _ => .literal trivial⟩

theorem group (h : Derives name .expression ls x) (place : Location) :
    Derives name .primary (.mark .parenOpen :: (ls ++ [.mark .parenClose])) (.group x place) := by
  intro ts hts
  obtain ⟨opening, ts, rfl, htail⟩ := exists_of_map_cons hts
  obtain ⟨ts₁, ts₂, rfl, hinner, hclose⟩ := List.map_eq_append_iff.1 htail
  obtain ⟨closing, ts₂, rfl, hnil⟩ := exists_of_map_cons hclose
  obtain ⟨e, rfl, he⟩ := h ts₁ hinner
  rw [List.map_eq_nil_iff.1 hnil]
  exact ⟨.group opening e closing, rfl, fun t _ hkeeps => .group (he t hkeeps) trivial⟩

theorem plain (h : Derives name .primary ls x) : Derives name .call ls x := by
  intro ts hts
  obtain ⟨e, rfl, he⟩ := h ts hts
  exact ⟨.plain e, rfl, he⟩

theorem callEmpty (h : Derives name .call ls x) (place : Location) :
    Derives name .call (ls ++ [.mark .parenOpen, .mark .parenClose]) (.call x [] place) := by
  intro ts hts
  obtain ⟨ts₁, ts₂, rfl, hcallee, hopen⟩ := List.map_eq_append_iff.1 hts
  obtain ⟨opening, ts₂, rfl, hclose⟩ := exists_of_map_cons hopen
  obtain ⟨closing, ts₂, rfl, hnil⟩ := exists_of_map_cons hclose
  obtain ⟨e, rfl, he⟩ := h ts₁ hcallee
  rw [List.map_eq_nil_iff.1 hnil]
  exact ⟨.callEmpty e opening closing, rfl,
    fun t _ hkeeps => .call (he t hkeeps) .nil trivial⟩

theorem callWith {xs : List Expr} (h : Derives name .call ls x)
    (hargs : Derives name .arguments ls' xs) (place : Location) :
    Derives name .call (ls ++ .mark .parenOpen :: (ls' ++ [.mark .parenClose]))
      (.call x xs place) := by
  intro ts hts
  obtain ⟨ts₁, ts₂, rfl, hcallee, hopen⟩ := List.map_eq_append_iff.1 hts
  obtain ⟨opening, ts₂, rfl, htail⟩ := exists_of_map_cons hopen
  obtain ⟨ts₂, ts₃, rfl, hinner, hclose⟩ := List.map_eq_append_iff.1 htail
  obtain ⟨closing, ts₃, rfl, hnil⟩ := exists_of_map_cons hclose
  obtain ⟨e, rfl, he⟩ := h ts₁ hcallee
  obtain ⟨args, rfl, hxs⟩ := hargs ts₂ hinner
  rw [List.map_eq_nil_iff.1 hnil]
  exact ⟨.callWith e opening args closing, rfl, fun t _ hkeeps =>
    .call (he t ((args.keeps_build _).trans hkeeps)) (hxs _ hkeeps) trivial⟩

theorem operand (h : Derives name .call ls x) : Derives name .unary ls x := by
  intro ts hts
  obtain ⟨e, rfl, he⟩ := h ts hts
  exact ⟨.operand e, rfl, he⟩

theorem operator (op : UnaryOp) (h : Derives name .unary ls x) (place : Location) :
    Derives name .unary (.mark op.mark :: ls) (.unary op x place) := by
  have hop : op.mark.unaryOp? = some op := by
    cases op <;> rfl
  intro ts hts
  obtain ⟨loc, ts, rfl, hinner⟩ := exists_of_map_cons hts
  obtain ⟨e, rfl, he⟩ := h ts hinner
  exact ⟨.operator _ op loc e (mem_signs.2 hop), rfl, fun t _ hkeeps => .unary (he t hkeeps) trivial⟩

theorem lone (h : Derives name .unary ls x) : Derives name (.binary 5) ls x := by
  intro ts hts
  obtain ⟨e, rfl, he⟩ := h ts hts
  exact ⟨.lone e, rfl, he⟩

/-- What binds tighter stands also where less is asked for. -/
theorem tighter {p q : Nat} (hle : p ≤ q) (h : Derives name (.binary q) ls x) :
    Derives name (.binary p) ls x := by
  induction q, hle using Nat.le_induction with
  | base => exact h
  | succ q hle ih =>
    refine ih fun ts hts => ?_
    obtain ⟨e, rfl, he⟩ := h ts hts
    exact ⟨.tighter e, rfl, he⟩

theorem chain {op : BinaryOp} {mark : Mark} (spelled : op.mark? = some mark)
    (h : Derives name (.binary op.precedence) ls x)
    (h' : Derives name (.binary (op.precedence + 1)) ls' y) (place : Location) :
    Derives name (.binary op.precedence) (ls ++ .mark mark :: ls') (.binary op x y place) := by
  have hop : mark.binaryOp? = some op := by
    cases op <;> cases spelled <;> rfl
  intro ts hts
  obtain ⟨ts₁, ts₂, rfl, hleft, hmark⟩ := List.map_eq_append_iff.1 hts
  obtain ⟨loc, ts₂, rfl, hright⟩ := exists_of_map_cons hmark
  obtain ⟨a, rfl, ha⟩ := h ts₁ hleft
  obtain ⟨b, rfl, hb⟩ := h' ts₂ hright
  exact ⟨.chain a mark op loc b (mem_operators.2 ⟨hop, rfl⟩), rfl, fun t _ hkeeps =>
    .binary (ha t ((b.keeps_build _).trans hkeeps)) (hb _ hkeeps) trivial⟩

theorem simple (h : Derives name (.binary 1) ls x) : Derives name .expression ls x := by
  intro ts hts
  obtain ⟨e, rfl, he⟩ := h ts hts
  exact ⟨.simple e, rfl, he⟩

theorem assign (h : Derives name (.binary 1) ls x) (h' : Derives name .expression ls' y)
    (place : Location) :
    Derives name .expression (ls ++ .mark .assign :: ls') (.assign x y place) := by
  intro ts hts
  obtain ⟨ts₁, ts₂, rfl, htarget, hmark⟩ := List.map_eq_append_iff.1 hts
  obtain ⟨loc, ts₂, rfl, hvalue⟩ := exists_of_map_cons hmark
  obtain ⟨a, rfl, ha⟩ := h ts₁ htarget
  obtain ⟨b, rfl, hb⟩ := h' ts₂ hvalue
  have hlisted : (Mark.assign, AssignOp.plain) ∈ assignments := by decide
  exact ⟨.assign a .assign .plain loc b hlisted, rfl, fun t _ hkeeps =>
    .assign (ha t ((b.keeps_build _).trans hkeeps)) (hb _ hkeeps) trivial⟩

theorem argument (h : Derives name .expression ls x) : Derives name .arguments ls [x] := by
  intro ts hts
  obtain ⟨e, rfl, he⟩ := h ts hts
  exact ⟨.argument e, rfl, fun t _ hkeeps => .cons (he t hkeeps) .nil⟩

theorem another {xs : List Expr} (h : Derives name .arguments ls xs)
    (h' : Derives name .expression ls' y) :
    Derives name .arguments (ls ++ .mark .comma :: ls') (xs ++ [y]) := by
  intro ts hts
  obtain ⟨ts₁, ts₂, rfl, hbefore, hmark⟩ := List.map_eq_append_iff.1 hts
  obtain ⟨comma, ts₂, rfl, hlast⟩ := exists_of_map_cons hmark
  obtain ⟨a, rfl, ha⟩ := h ts₁ hbefore
  obtain ⟨b, rfl, hb⟩ := h' ts₂ hlast
  exact ⟨.another a comma b, rfl, fun t _ hkeeps =>
    (ha t ((b.keeps_build _).trans hkeeps)).append (.cons (hb _ hkeeps) .nil)⟩

end Derives

end Grammar

namespace Expr

open Grammar Fragment

/-- The tightest level of operators at which an expression can stand; none for an
assignment. -/
def tightness : Expr → Nat
  | .assign _ _ _ => 0
  | .binary op _ _ _ => op.precedence
  | _ => 5

/-- The printed expression has derivations of every level at which the expression can stand. -/
structure Reads (name : Int → String) (e : Expr) : Prop where
  call : e.needsParensAsCallee = false →
    Derives name .call (lexemes (e.fragments name)) e.bracketed
  unary : e.isOperation = false →
    Derives name .unary (lexemes (e.fragments name)) e.bracketed
  binary : ∀ p, 1 ≤ p → p ≤ e.tightness →
    Derives name (.binary p) (lexemes (e.fragments name)) e.bracketed
  expression : Derives name .expression (lexemes (e.fragments name)) e.bracketed

namespace Reads

variable {name : Int → String} {e : Expr}

theorem ofBinary (hcall : e.needsParensAsCallee) (hunary : e.isOperation) (hpos : 1 ≤ e.tightness)
    (h : Derives name (.binary e.tightness) (lexemes (e.fragments name)) e.bracketed) :
    e.Reads name where
  call hnot := by simp [hcall] at hnot
  unary hnot := by simp [hunary] at hnot
  binary p _ hle := h.tighter hle
  expression := (h.tighter hpos).simple

theorem ofUnary (hcall : e.needsParensAsCallee) (htight : e.tightness = 5)
    (h : Derives name .unary (lexemes (e.fragments name)) e.bracketed) : e.Reads name where
  call hnot := by simp [hcall] at hnot
  unary _ := h
  binary p _ hle := h.lone.tighter (htight ▸ hle)
  expression := (h.lone.tighter (by omega)).simple

theorem ofCall (htight : e.tightness = 5)
    (h : Derives name .call (lexemes (e.fragments name)) e.bracketed) : e.Reads name where
  call _ := h
  unary _ := h.operand
  binary p _ hle := h.operand.lone.tighter (htight ▸ hle)
  expression := (h.operand.lone.tighter (by omega)).simple

/-- Parentheses make an expression fit to stand anywhere. -/
theorem parens (h : e.Reads name) :
    Derives name .primary (lexemes (parens (e.fragments name))) (.group e.bracketed .none) := by
  rw [lexemes_parens]
  exact h.expression.group .none

theorem callee (h : e.Reads name) :
    Derives name .call (lexemes (parensIf e.needsParensAsCallee (e.fragments name)))
      (groupIf e.needsParensAsCallee e.bracketed) := by
  unfold parensIf groupIf
  split
  · exact h.parens.plain
  · rename_i hneeds
    exact h.call (Bool.eq_false_iff.2 hneeds)

theorem operand (h : e.Reads name) :
    Derives name .unary (lexemes (parensIf e.isOperation (e.fragments name)))
      (groupIf e.isOperation e.bracketed) := by
  unfold parensIf groupIf
  split
  · exact h.parens.plain.operand
  · rename_i hneeds
    exact h.unary (Bool.eq_false_iff.2 hneeds)

/-- Without parentheses an operand binds tighter than the operator beside it, or as tight on the
left. -/
theorem le_tightness {precedence : Nat} {right : Bool} (hle : precedence ≤ 4)
    (h : e.needsParensBeside precedence right = false) :
    precedence + right.toNat ≤ e.tightness := by
  cases e with
  | assign => cases h
  | binary op l r loc =>
    simp only [needsParensBeside, Bool.or_eq_false_iff, decide_eq_false_iff_not,
      Bool.and_eq_false_iff, beq_eq_false_iff_ne] at h
    cases right <;> simp [tightness] at h ⊢ <;> omega
  | unary | call | group | var | literal =>
    cases right <;> simp [tightness] <;> omega

theorem beside (h : e.Reads name) {precedence : Nat} (right : Bool) (hpos : 1 ≤ precedence)
    (hle : precedence ≤ 4) :
    Derives name (.binary (precedence + right.toNat))
      (lexemes (parensIf (e.needsParensBeside precedence right) (e.fragments name)))
      (groupIf (e.needsParensBeside precedence right) e.bracketed) := by
  unfold parensIf groupIf
  split
  · have hbound : right.toNat ≤ 1 := by cases right <;> decide
    exact h.parens.plain.operand.lone.tighter (by omega)
  · rename_i hneeds
    exact h.binary _ (by omega) (le_tightness hle (Bool.eq_false_iff.2 hneeds))

end Reads

theorem derives_arguments {name : Int → String} {ls : List Lexeme} {xs : List Expr}
    (h : Derives name .arguments ls xs) {es : List Expr} (hes : ∀ e ∈ es, e.Reads name) :
    Derives name .arguments
      (ls ++ lexemes ((Expr.fragmentLists name es).flatMap fun i => mark .comma :: space :: i))
      (xs ++ bracketedAll es) := by
  induction es generalizing ls xs with
  | nil => simpa [Expr.fragmentLists, bracketedAll] using h
  | cons e rest ih =>
    obtain ⟨he, hrest⟩ := List.forall_mem_cons.1 hes
    have hnext := ih (h.another he.expression) hrest
    simpa [Expr.fragmentLists, bracketedAll] using hnext

theorem precedence_bounds (op : BinaryOp) : 1 ≤ op.precedence ∧ op.precedence ≤ 4 := by
  cases op <;> simp [BinaryOp.precedence]

mutual

/-- Printed expressions are derivations of the expression with the printer's parentheses. -/
theorem reads (name : Int → String) : (e : Expr) → e.Printable name → e.Reads name
  | .literal value loc, h => by
    refine .ofCall rfl (Derives.plain ?_)
    rcases h with ⟨b, rfl⟩ | ⟨n, hn, rfl⟩
    · exact Derives.truth b loc
    · have hlexemes : lexemes ((Expr.literal (literalOf n) loc).fragments name) =
          [.integer (toString n)] := by
        simp only [Expr.fragments, literal_literalOf hn]
        rfl
      have hderives := @Derives.integer name (toString n) loc
      rw [numeral_toString] at hderives
      rw [hlexemes]
      exact hderives
  | .var id loc, h => .ofCall rfl (Derives.named id loc).plain
  | .group inner loc, h => by
    have hderives := (reads name inner h).expression.group loc
    refine .ofCall rfl (Derives.plain ?_)
    simpa [Expr.fragments, bracketed] using hderives
  | .assign target value loc, h => by
    obtain ⟨hassign, htarget, hvalue⟩ := h
    have hpos : 1 ≤ target.tightness := by
      cases target with
      | assign => cases hassign
      | binary op => exact (precedence_bounds op).1
      | unary | call | group | var | literal => simp [tightness]
    have hderives := ((reads name target htarget).binary 1 (by omega) hpos).assign
      (reads name value hvalue).expression loc
    refine ⟨fun hnot => ?_, fun hnot => ?_, fun p hp hle => ?_, ?_⟩
    · cases hnot
    · cases hnot
    · have hzero : (Expr.assign target value loc).tightness = 0 := rfl
      omega
    · simpa [Expr.fragments, bracketed] using hderives
  | .unary op operand loc, h => by
    have hderives := (reads name operand h.2).operand.operator op loc
    refine .ofUnary rfl rfl ?_
    simpa [Expr.fragments, bracketed] using hderives
  | .binary op left right loc, h => by
    obtain ⟨hop, _, hleft, hright⟩ := h
    obtain ⟨mark, hmark⟩ := Option.isSome_iff_exists.1 hop
    obtain ⟨hpos, hle⟩ := precedence_bounds op
    have hfirst := (reads name left hleft).beside false hpos hle
    have hsecond := (reads name right hright).beside true hpos hle
    have hderives := Derives.chain hmark hfirst hsecond loc
    refine .ofBinary rfl rfl hpos ?_
    simpa only [tightness, Expr.fragments, bracketed, binaryOp, hmark, lexemes_append,
      lexemes_space, lexemes_mark, lexemes_nil] using hderives
  | .call callee args loc, h => by
    have hcallee := (reads name callee h.2.1).callee
    have hargs := readsAll name args h.2.2
    refine .ofCall rfl ?_
    cases args with
    | nil => simpa [Expr.fragments, bracketed, Expr.fragmentLists, bracketedAll, commaSeparated]
        using hcallee.callEmpty loc
    | cons e rest =>
      obtain ⟨he, hrest⟩ := List.forall_mem_cons.1 hargs
      have hderives := hcallee.callWith (derives_arguments he.expression.argument hrest) loc
      simpa [Expr.fragments, bracketed, Expr.fragmentLists, bracketedAll, commaSeparated_cons]
        using hderives

theorem readsAll (name : Int → String) : (es : List Expr) → Expr.PrintableAll name es →
    ∀ e ∈ es, e.Reads name
  | [], _ => by simp
  | e :: rest, h => List.forall_mem_cons.2 ⟨reads name e h.1, readsAll name rest h.2⟩

end

end Expr

end Ember
