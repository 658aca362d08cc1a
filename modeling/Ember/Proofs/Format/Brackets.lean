import Ember.Proofs.Format.Sketch
import Ember.Proofs.Naming.Tree

namespace Ember

/-- The expression as a group if `needed`, as the printer brackets its text. -/
def Expr.groupIf (needed : Bool) (e : Expr) : Expr := if needed then .group e .none else e

mutual

/-- The expression with a group wherever the printer adds parentheses. -/
def Expr.bracketed : Expr → Expr
  | .literal value loc => .literal value loc
  | .var id loc => .var id loc
  | .group inner loc => .group inner.bracketed loc
  | .assign target value loc => .assign target.bracketed value.bracketed loc
  | .unary op operand loc => .unary op (.groupIf operand.isOperation operand.bracketed) loc
  | .binary op left right loc =>
    .binary op (.groupIf (left.needsParensBeside op.precedence false) left.bracketed)
      (.groupIf (right.needsParensBeside op.precedence true) right.bracketed) loc
  | .call callee args loc =>
    .call (.groupIf callee.needsParensAsCallee callee.bracketed) (Expr.bracketedAll args) loc

def Expr.bracketedAll : List Expr → List Expr
  | [] => []
  | e :: rest => e.bracketed :: Expr.bracketedAll rest

end

mutual

/-- The statement with a group wherever the printer adds parentheses. -/
def Stmt.bracketed : Stmt → Stmt
  | .function id params result body bodyLoc loc =>
    .function id params result (Stmt.bracketedAll body) bodyLoc loc
  | .var id type init loc => .var id type (init.map Expr.bracketed) loc
  | .block body loc => .block (Stmt.bracketedAll body) loc
  | .conditional cond body none loc => .conditional cond.bracketed body.bracketed none loc
  | .conditional cond body (some other) loc =>
    .conditional cond.bracketed body.bracketed (some other.bracketed) loc
  | .loop cond body loc => .loop cond.bracketed body.bracketed loc
  | .returning value loc => .returning (value.map Expr.bracketed) loc
  | .expr e loc => .expr e.bracketed loc

def Stmt.bracketedAll : List Stmt → List Stmt
  | [] => []
  | s :: rest => s.bracketed :: Stmt.bracketedAll rest

end

namespace Expr

/-- The groups are new, so that what an operand is does not change below them. -/
theorem isOperation_bracketed (e : Expr) : e.bracketed.isOperation = e.isOperation := by
  cases e <;> rfl

theorem needsParensAsCallee_bracketed (e : Expr) :
    e.bracketed.needsParensAsCallee = e.needsParensAsCallee := by
  cases e <;> rfl

theorem needsParensBeside_bracketed (e : Expr) (precedence : Nat) (right : Bool) :
    e.bracketed.needsParensBeside precedence right = e.needsParensBeside precedence right := by
  cases e <;> rfl

open Fragment in
/-- A group needs no parentheses, and an expression that is no group by now needs none either. -/
theorem parensIf_groupIf (name : Int → String) (needs : Expr → Bool)
    (hgroup : ∀ inner loc, needs (.group inner loc) = false) (e : Expr) :
    parensIf (needs (groupIf (needs e) e)) ((groupIf (needs e) e).fragments name) =
      parensIf (needs e) (e.fragments name) := by
  cases hneeds : needs e with
  | true => simp [groupIf, hgroup, parensIf, Expr.fragments]
  | false => simp [groupIf, hneeds]

mutual

theorem fragments_bracketed (name : Int → String) :
    (e : Expr) → e.bracketed.fragments name = e.fragments name
  | .literal _ _ | .var _ _ => rfl
  | .group inner _ => congrArg Fragment.parens (fragments_bracketed name inner)
  | .assign target value _ => by
    simp only [bracketed, fragments, fragments_bracketed name target,
      fragments_bracketed name value]
  | .unary op operand _ => by
    have hoperand := parensIf_groupIf name isOperation (fun _ _ => rfl) operand.bracketed
    rw [isOperation_bracketed, fragments_bracketed name operand] at hoperand
    simp only [bracketed, fragments, hoperand]
  | .binary op left right _ => by
    have hleft := parensIf_groupIf name (·.needsParensBeside op.precedence false)
      (fun _ _ => rfl) left.bracketed
    have hright := parensIf_groupIf name (·.needsParensBeside op.precedence true)
      (fun _ _ => rfl) right.bracketed
    rw [needsParensBeside_bracketed, fragments_bracketed name left] at hleft
    rw [needsParensBeside_bracketed, fragments_bracketed name right] at hright
    simp only [bracketed, fragments, hleft, hright]
  | .call callee args _ => by
    have hcallee := parensIf_groupIf name needsParensAsCallee (fun _ _ => rfl) callee.bracketed
    rw [needsParensAsCallee_bracketed, fragments_bracketed name callee] at hcallee
    simp only [bracketed, fragments, hcallee, fragmentLists_bracketed name args]

theorem fragmentLists_bracketed (name : Int → String) :
    (es : List Expr) → fragmentLists name (bracketedAll es) = fragmentLists name es
  | [] => rfl
  | e :: rest => by
    simp only [bracketedAll, fragmentLists, fragments_bracketed name e,
      fragmentLists_bracketed name rest]

end

theorem sketch_groupIf (name : Int → String) (needed : Bool) (e : Expr) :
    (groupIf needed e).sketch name = e.sketch name := by
  cases needed <;> rfl

mutual

theorem sketch_bracketed (name : Int → String) :
    (e : Expr) → e.bracketed.sketch name = e.sketch name
  | .literal _ _ | .var _ _ => rfl
  | .group inner _ => sketch_bracketed name inner
  | .assign target value _ => by
    simp only [bracketed, sketch, sketch_bracketed name target, sketch_bracketed name value]
  | .unary op operand _ => by
    simp only [bracketed, sketch, sketch_groupIf, sketch_bracketed name operand]
  | .binary op left right _ => by
    simp only [bracketed, sketch, sketch_groupIf, sketch_bracketed name left,
      sketch_bracketed name right]
  | .call callee args _ => by
    simp only [bracketed, sketch, sketch_groupIf, sketch_bracketed name callee,
      sketches_bracketed name args]

theorem sketches_bracketed (name : Int → String) :
    (es : List Expr) → sketches name (bracketedAll es) = sketches name es
  | [] => rfl
  | e :: rest => by
    simp only [bracketedAll, sketches, sketch_bracketed name e, sketches_bracketed name rest]

end

end Expr

namespace Stmt

theorem isBlock_bracketed (s : Stmt) : s.bracketed.isBlock = s.isBlock := by
  cases s with
  | conditional _ _ other _ => cases other <;> rfl
  | _ => rfl

theorem isConditional_bracketed (s : Stmt) : s.bracketed.isConditional = s.isConditional := by
  cases s with
  | conditional _ _ other _ => cases other <;> rfl
  | _ => rfl

theorem isFunction_bracketed (s : Stmt) : s.bracketed.isFunction = s.isFunction := by
  cases s with
  | conditional _ _ other _ => cases other <;> rfl
  | _ => rfl

mutual

theorem fragments_bracketed (name : Int → String) :
    (s : Stmt) → s.bracketed.fragments name = s.fragments name
  | .function _ _ _ body _ _ => by
    funext indent
    simp only [bracketed, fragments, fragmentLists_bracketed name body]
  | .var _ _ none _ => rfl
  | .var _ _ (some e) _ => by
    funext indent
    simp only [bracketed, fragments, Option.map_some, e.fragments_bracketed]
  | .block body _ => by
    funext indent
    simp only [bracketed, fragments, fragmentLists_bracketed name body]
  | .conditional cond body none _ => by
    funext indent
    simp only [bracketed, fragments, Fragment.hanging, cond.fragments_bracketed,
      isBlock_bracketed, fragments_bracketed name body]
  | .conditional cond body (some other) _ => by
    funext indent
    simp only [bracketed, fragments, Fragment.hanging, Fragment.alternative,
      Fragment.beforeAlternative, cond.fragments_bracketed, isBlock_bracketed,
      isConditional_bracketed, fragments_bracketed name body, fragments_bracketed name other]
  | .loop cond body _ => by
    funext indent
    simp only [bracketed, fragments, Fragment.hanging, cond.fragments_bracketed,
      isBlock_bracketed, fragments_bracketed name body]
  | .returning none _ => rfl
  | .returning (some e) _ => by
    funext indent
    simp only [bracketed, fragments, Option.map_some, e.fragments_bracketed]
  | .expr e _ => by
    funext indent
    simp only [bracketed, fragments, e.fragments_bracketed]

theorem fragmentLists_bracketed (name : Int → String) :
    (ss : List Stmt) → fragmentLists name (bracketedAll ss) = fragmentLists name ss
  | [] => rfl
  | s :: rest => by
    funext indent
    simp only [bracketedAll, fragmentLists, fragments_bracketed name s,
      fragmentLists_bracketed name rest]

end

/-- The groups do not show: the printer would have put their parentheses itself. -/
theorem programFragments_bracketed (name : Int → String) (body : List Stmt) :
    programFragments name (bracketedAll body) = programFragments name body := by
  fun_induction programFragments name body with
  | case1 => rfl
  | case2 s => simp only [bracketedAll, programFragments, fragments_bracketed]
  | case3 s rest hne ih =>
    obtain ⟨next, rest, rfl⟩ := List.exists_cons_of_ne_nil hne
    simp only [bracketedAll, programFragments, fragments_bracketed, isFunction_bracketed] at ih ⊢
    rw [ih]

mutual

theorem sketch_bracketed (name : Int → String) :
    (s : Stmt) → s.bracketed.sketch name = s.sketch name
  | .function _ _ _ body _ _ => by simp only [bracketed, sketch, sketches_bracketed name body]
  | .var _ _ none _ | .returning none _ => rfl
  | .var _ _ (some e) _ | .returning (some e) _ => by
    simp only [bracketed, sketch, Option.map_some, e.sketch_bracketed]
  | .block body _ => by simp only [bracketed, sketch, sketches_bracketed name body]
  | .conditional cond body none _ => by
    simp only [bracketed, sketch, cond.sketch_bracketed, sketch_bracketed name body]
  | .conditional cond body (some other) _ => by
    simp only [bracketed, sketch, cond.sketch_bracketed, sketch_bracketed name body,
      sketch_bracketed name other]
  | .loop cond body _ => by
    simp only [bracketed, sketch, cond.sketch_bracketed, sketch_bracketed name body]
  | .expr e _ => by simp only [bracketed, sketch, e.sketch_bracketed]

theorem sketches_bracketed (name : Int → String) :
    (ss : List Stmt) → sketches name (bracketedAll ss) = sketches name ss
  | [] => rfl
  | s :: rest => by
    simp only [bracketedAll, sketches, sketch_bracketed name s, sketches_bracketed name rest]

end

end Stmt

/-- The ids stand for one name. -/
def SameText (name name' : Int → String) (a b : Int) : Prop := name a = name' b

/-- Places do not matter. -/
def Anywhere (_ _ : Location) : Prop := True

section

variable {name name' : Int → String} {q : Location → Location → Prop}

mutual

theorem Expr.Alike.sketch_eq : ∀ {e e' : Expr}, Expr.Alike (SameText name name') q e e' →
    e.sketch name = e'.sketch name'
  | _, _, .literal _ => rfl
  | _, _, .var hid _ => congrArg ExprSketch.var hid
  | _, _, .group hinner _ => hinner.sketch_eq
  | _, _, .assign htarget hvalue _ => by
    simp only [Expr.sketch, htarget.sketch_eq, hvalue.sketch_eq]
  | _, _, .unary hoperand _ => by simp only [Expr.sketch, hoperand.sketch_eq]
  | _, _, .binary hleft hright _ => by
    simp only [Expr.sketch, hleft.sketch_eq, hright.sketch_eq]
  | _, _, .call hcallee hargs _ => by
    simp only [Expr.sketch, hcallee.sketch_eq, hargs.sketches_eq]

theorem Expr.AlikeAll.sketches_eq : ∀ {es es' : List Expr},
    Expr.AlikeAll (SameText name name') q es es' → Expr.sketches name es = Expr.sketches name' es'
  | _, _, .nil => rfl
  | _, _, .cons he hrest => by simp only [Expr.sketches, he.sketch_eq, hrest.sketches_eq]

end

theorem Param.Alike.sketch_eq {ps ps' : List Param}
    (h : List.Forall₂ (Param.Alike (SameText name name') q) ps ps') :
    ps.map (Param.sketch name) = ps'.map (Param.sketch name') := by
  induction h with
  | nil => rfl
  | cons hp _ ih =>
    have hid : name _ = name' _ := hp.id
    simp only [List.map_cons, Param.sketch, hid, hp.type, ih]

mutual

theorem Stmt.Alike.sketch_eq : ∀ {s s' : Stmt}, Stmt.Alike (SameText name name') q s s' →
    s.sketch name = s'.sketch name'
  | _, _, .function hid hparams hbody _ _ => by
    have hname : name _ = name' _ := hid
    simp only [Stmt.sketch, hname, Param.Alike.sketch_eq hparams, hbody.sketches_eq]
  | _, _, .var hid hinit _ => by
    have hname : name _ = name' _ := hid
    cases hinit with
    | none => simp only [Stmt.sketch, hname, Option.map_none]
    | some he => simp only [Stmt.sketch, hname, Option.map_some, he.sketch_eq]
  | _, _, .block hbody _ => by simp only [Stmt.sketch, hbody.sketches_eq]
  | _, _, .ifThen hcond hbody _ => by simp only [Stmt.sketch, hcond.sketch_eq, hbody.sketch_eq]
  | _, _, .ifElse hcond hbody hother _ => by
    simp only [Stmt.sketch, hcond.sketch_eq, hbody.sketch_eq, hother.sketch_eq]
  | _, _, .loop hcond hbody _ => by simp only [Stmt.sketch, hcond.sketch_eq, hbody.sketch_eq]
  | _, _, .returning hvalue _ => by
    cases hvalue with
    | none => rfl
    | some he => simp only [Stmt.sketch, Option.map_some, he.sketch_eq]
  | _, _, .expr he _ => by simp only [Stmt.sketch, he.sketch_eq]

theorem Stmt.AlikeAll.sketches_eq : ∀ {ss ss' : List Stmt},
    Stmt.AlikeAll (SameText name name') q ss ss' →
      Stmt.sketches name ss = Stmt.sketches name' ss'
  | _, _, .nil => rfl
  | _, _, .cons hs hrest => by simp only [Stmt.sketches, hs.sketch_eq, hrest.sketches_eq]

end

end

end Ember
