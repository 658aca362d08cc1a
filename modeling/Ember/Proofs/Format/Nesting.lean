import Ember.Proofs.Format.Program

namespace Ember

mutual

/-- How many operands stand inside each other: an operator counts, and so does what stands in
parentheses. -/
def Expr.nesting : Expr → Nat
  | .literal _ _ | .var _ _ => 1
  | .group inner _ => inner.nesting + 1
  | .unary _ operand _ => operand.nesting + 1
  | .binary _ left right _ => max left.nesting right.nesting
  | .assign target value _ => max target.nesting value.nesting
  | .call callee args _ => max callee.nesting (Expr.nestingAll args + 1)

def Expr.nestingAll : List Expr → Nat
  | [] => 0
  | e :: rest => max e.nesting (Expr.nestingAll rest)

end

/-- How deep an expression nests that may be absent. -/
def Expr.optionNesting (e : Option Expr) : Nat := (e.map Expr.nesting).getD 0

mutual

/-- How many statements and operands stand inside each other. -/
def Stmt.nesting : Stmt → Nat
  | .function _ _ _ body _ _ => Stmt.nestingAll body
  | .var _ _ init _ => Expr.optionNesting init
  | .block body _ => Stmt.nestingAll body + 1
  | .conditional cond body none _ => max cond.nesting body.nesting + 1
  | .conditional cond body (some other) _ =>
    max cond.nesting (max body.nesting other.nesting) + 1
  | .loop cond body _ => max cond.nesting body.nesting + 1
  | .returning value _ => Expr.optionNesting value + 1
  | .expr e _ => e.nesting + 1

def Stmt.nestingAll : List Stmt → Nat
  | [] => 0
  | s :: rest => max s.nesting (Stmt.nestingAll rest)

end

theorem Expr.nestingAll_append (as bs : List Expr) :
    Expr.nestingAll (as ++ bs) = max (Expr.nestingAll as) (Expr.nestingAll bs) := by
  induction as with
  | nil => simp [Expr.nestingAll]
  | cons a as ih => simp [Expr.nestingAll, ih, Nat.max_assoc]

theorem Stmt.nestingAll_append (as bs : List Stmt) :
    Stmt.nestingAll (as ++ bs) = max (Stmt.nestingAll as) (Stmt.nestingAll bs) := by
  induction as with
  | nil => simp [Stmt.nestingAll]
  | cons a as ih => simp [Stmt.nestingAll, ih, Nat.max_assoc]

section

variable {r : Int → Int → Prop} {q : Location → Location → Prop}

mutual

theorem Expr.Alike.nesting_eq : ∀ {e e' : Expr}, Expr.Alike r q e e' → e.nesting = e'.nesting
  | _, _, .literal _ | _, _, .var _ _ => rfl
  | _, _, .group hinner _ => by simp only [Expr.nesting, hinner.nesting_eq]
  | _, _, .assign htarget hvalue _ => by
    simp only [Expr.nesting, htarget.nesting_eq, hvalue.nesting_eq]
  | _, _, .unary hoperand _ => by simp only [Expr.nesting, hoperand.nesting_eq]
  | _, _, .binary hleft hright _ => by
    simp only [Expr.nesting, hleft.nesting_eq, hright.nesting_eq]
  | _, _, .call hcallee hargs _ => by
    simp only [Expr.nesting, hcallee.nesting_eq, hargs.nestingAll_eq]

theorem Expr.AlikeAll.nestingAll_eq : ∀ {es es' : List Expr}, Expr.AlikeAll r q es es' →
    Expr.nestingAll es = Expr.nestingAll es'
  | _, _, .nil => rfl
  | _, _, .cons he hrest => by simp only [Expr.nestingAll, he.nesting_eq, hrest.nestingAll_eq]

end

theorem Expr.Alike.optionNesting_eq {e e' : Option Expr} (h : Option.Rel (Expr.Alike r q) e e') :
    Expr.optionNesting e = Expr.optionNesting e' := by
  cases h with
  | none => rfl
  | some h => exact h.nesting_eq

mutual

theorem Stmt.Alike.nesting_eq : ∀ {s s' : Stmt}, Stmt.Alike r q s s' → s.nesting = s'.nesting
  | _, _, .function _ _ hbody _ _ => by simp only [Stmt.nesting, hbody.nestingAll_eq]
  | _, _, .var _ hinit _ => by simp only [Stmt.nesting, Expr.Alike.optionNesting_eq hinit]
  | _, _, .block hbody _ => by simp only [Stmt.nesting, hbody.nestingAll_eq]
  | _, _, .ifThen hcond hbody _ => by
    simp only [Stmt.nesting, hcond.nesting_eq, hbody.nesting_eq]
  | _, _, .ifElse hcond hbody hother _ => by
    simp only [Stmt.nesting, hcond.nesting_eq, hbody.nesting_eq, hother.nesting_eq]
  | _, _, .loop hcond hbody _ => by
    simp only [Stmt.nesting, hcond.nesting_eq, hbody.nesting_eq]
  | _, _, .returning hvalue _ => by simp only [Stmt.nesting, Expr.Alike.optionNesting_eq hvalue]
  | _, _, .expr he _ => by simp only [Stmt.nesting, he.nesting_eq]

theorem Stmt.AlikeAll.nestingAll_eq : ∀ {ss ss' : List Stmt}, Stmt.AlikeAll r q ss ss' →
    Stmt.nestingAll ss = Stmt.nestingAll ss'
  | _, _, .nil => rfl
  | _, _, .cons hs hrest => by simp only [Stmt.nestingAll, hs.nesting_eq, hrest.nestingAll_eq]

end

end

/-- A lexeme that only stands in what is expressed by other statements and assignments. -/
def Lexeme.isSugar : Lexeme → Bool
  | .keyword .forKw | .keyword .doKw => true
  | .mark .plusAssign | .mark .minusAssign | .mark .starAssign | .mark .slashAssign
  | .mark .percentAssign => true
  | _ => false

namespace Grammar

/-- Tokens of which the trees of derivations show everything that nests. -/
def Plain (ts : List Token) : Prop := ∀ t ∈ ts, t.lexeme.isSugar = false

@[simp] theorem plain_cons {t : Token} {ts : List Token} :
    Plain (t :: ts) ↔ t.lexeme.isSugar = false ∧ Plain ts := List.forall_mem_cons

@[simp] theorem plain_append {ts ts' : List Token} :
    Plain (ts ++ ts') ↔ Plain ts ∧ Plain ts' := List.forall_mem_append

theorem assignOp_of_plain {m : Mark} {op : AssignOp} (h : m.assignOp? = some op)
    (hplain : (Lexeme.mark m).isSugar = false) : op = .plain := by
  cases m <;> first | cases h <;> rfl | cases hplain

/-- How deep a derivation of the level has to nest for the tree: as an operand it is one deeper
than as a callee. -/
def Level.Nests (depth : Nat) : (l : Level) → l.Tree → Prop
  | .arguments, es => depth = Expr.nestingAll es
  | .expression, e | .binary _, e | .unary, e => depth = Expr.nesting e
  | .call, e | .primary, e => depth + 1 = Expr.nesting e

theorem Phrase.nests {l : Level} (e : Phrase l) (h : Plain e.tokens) (t : SymbolTable) :
    l.Nests e.depth (e.build t).1 := by
  induction e generalizing t with
  | named | truth | integer => rfl
  | group opening inner closing ih =>
    simp only [tokens, plain_cons, plain_append] at h
    exact congrArg (· + 1) (ih h.2.1 t)
  | plain inner ih => exact ih h t
  | callEmpty callee opening closing ih =>
    simp only [tokens, plain_append] at h
    have hcallee := ih h.1 t
    simp only [Level.Nests] at hcallee ⊢
    simp only [build, Expr.nesting, Expr.nestingAll, depth]
    omega
  | callWith callee opening args closing ih ihArgs =>
    simp only [tokens, plain_cons, plain_append] at h
    have hcallee := ih h.1 t
    have hargs := ihArgs h.2.2.1 (callee.build t).2
    simp only [Level.Nests] at hcallee hargs ⊢
    simp only [build, Expr.nesting, depth]
    omega
  | operand inner ih => exact ih h t
  | operator mark op loc inner listed ih => exact congrArg (· + 1) (ih (plain_cons.1 h).2 t)
  | lone inner ih => exact ih h t
  | tighter inner ih => exact ih h t
  | chain left mark op loc right listed ih ihRight =>
    simp only [tokens, plain_cons, plain_append] at h
    exact congrArg₂ max (ih h.1 t) (ihRight h.2.2 _)
  | simple inner ih => exact ih h t
  | assign target mark op loc value listed ih ihValue =>
    simp only [tokens, plain_cons, plain_append] at h
    cases assignOp_of_plain (mem_assignments.1 listed) h.2.1
    exact congrArg₂ max (ih h.1 t) (ihValue h.2.2 _)
  | argument inner ih =>
    have hinner := ih h t
    simp only [Level.Nests] at hinner ⊢
    simp only [build, Expr.nestingAll, depth, hinner, Nat.max_zero]
  | another before comma last ih ihLast =>
    simp only [tokens, plain_cons, plain_append] at h
    have hbefore := ih h.1 t
    have hlast := ihLast h.2.2 (before.build t).2
    simp only [Level.Nests] at hbefore hlast ⊢
    simp only [build, Expr.nestingAll_append, Expr.nestingAll, depth, hbefore, hlast, Nat.max_zero]

theorem Phrase.optionNesting_build (e : Option (Phrase .expression))
    (h : Plain (Phrase.optionTokens e)) (t : SymbolTable) :
    Phrase.optionDepth e = Expr.optionNesting (Phrase.optionBuild e t).1 := by
  cases e with
  | none => rfl
  | some e => exact e.nests h t

namespace Declarators

theorem nesting_one (type : Datatype) (d : Declarator) (h : Plain d.tokens) (t : SymbolTable) :
    d.depth = (d.build type t).1.nesting := by
  refine Phrase.optionNesting_build (d.init.map (·.2)) ?_ _
  have htail := (plain_cons.1 h).2
  cases hinit : d.init with
  | none => exact List.forall_mem_nil _
  | some init =>
    rw [hinit] at htail
    exact (plain_cons.1 htail).2

theorem nestingAll_build (type : Datatype) (ds : Declarators) (h : Plain ds.tokens)
    (t : SymbolTable) : ds.depth = Stmt.nestingAll (ds.build type t).1 := by
  induction ds with
  | one d =>
    simp only [build, Stmt.nestingAll, depth, nesting_one type d h t, Nat.max_zero]
  | another before comma d ih =>
    simp only [tokens, plain_cons, plain_append] at h
    have hlast := nesting_one type d h.2.2 (before.build type t).2
    simp only [build, Stmt.nestingAll_append, Stmt.nestingAll, depth, ih h.1, hlast,
      Nat.max_zero]

end Declarators

def Role.nesting : (r : Role) → r.Tree → Nat
  | .statement, s => Stmt.nesting s
  | .entry, ss | .entries, ss => Stmt.nestingAll ss

theorem Clause.nesting_build {r : Role} (c : Clause r) (h : Plain c.tokens) (t : SymbolTable) :
    c.depth = r.nesting (c.build t).1 := by
  induction c generalizing t with
  | block opening body closing ih =>
    simp only [tokens, plain_cons, plain_append] at h
    exact congrArg (· + 1) (ih h.2.1 t)
  | ifThen loc opening cond closing body ih =>
    simp only [tokens, plain_cons, plain_append] at h
    exact congrArg₂ (fun m n => max m n + 1) (cond.nests h.2.2.1 t) (ih h.2.2.2.2 _)
  | ifElse loc opening cond closing body elseLoc other ih ihOther =>
    simp only [tokens, plain_cons, plain_append] at h
    obtain ⟨-, -, hcond, -, hbody, -, hother⟩ := h
    have hbranches := congrArg₂ max (ih hbody (cond.build t).2) (ihOther hother
      (body.build (cond.build t).2).2)
    exact congrArg₂ (fun m n => max m n + 1) (cond.nests hcond t) hbranches
  | doWhile | forLoop =>
    -- Their keywords are no plain tokens.
    cases (plain_cons.1 h).1
  | whileLoop loc opening cond closing body ih =>
    simp only [tokens, plain_cons, plain_append] at h
    exact congrArg₂ (fun m n => max m n + 1) (cond.nests h.2.2.1 t) (ih h.2.2.2.2 _)
  | returning loc value semicolon =>
    simp only [tokens, plain_cons, plain_append] at h
    exact congrArg (· + 1) (Phrase.optionNesting_build value h.2.1 t)
  | expr e semicolon => exact congrArg (· + 1) (e.nests (plain_append.1 h).1 t)
  | vars v semicolon =>
    exact v.declarators.nestingAll_build _ (plain_cons.1 (plain_append.1 h).1).2 t
  | single s ih =>
    have hs : s.depth = Stmt.nesting (s.build t).1 := ih h t
    simp only [build, Role.nesting, Stmt.nestingAll, depth, hs, Nat.max_zero]
  | nothing => rfl
  | another before last ih ihLast =>
    simp only [tokens, plain_append] at h
    exact (congrArg₂ max (ih h.1 t) (ihLast h.2 _)).trans (Stmt.nestingAll_append _ _).symm

theorem Declaration.nestingAll_build (d : Declaration) (h : Plain d.tokens) (t : SymbolTable) :
    d.depth = Stmt.nestingAll (d.build t).1 := by
  cases d with
  | function f =>
    simp only [tokens, Function.tokens, plain_cons, plain_append] at h
    obtain ⟨-, -, -, -, -, -, -, -, hbody, -⟩ := h
    have hdepth := f.body.nesting_build hbody
    simp only [Role.nesting] at hdepth
    simp only [build, Function.build, Stmt.nestingAll, Stmt.nesting, depth, Nat.max_zero]
    exact hdepth _
  | entry e => exact e.nesting_build h t

/-- A derivation of plain tokens nests as deep as the statements that it builds. -/
theorem Module.nestingAll_build (m : Module) (h : Plain m.tokens) (t : SymbolTable) :
    m.depth = Stmt.nestingAll (m.build t).1 := by
  induction m with
  | nothing => rfl
  | another before last ih =>
    simp only [tokens, plain_append] at h
    have hlast := last.nestingAll_build h.2 (before.build t).2
    exact (congrArg₂ max (ih h.1) hlast).trans (Stmt.nestingAll_append _ _).symm

end Grammar

end Ember
