import Ember.Proofs.Fold.Run
import Ember.Wat.Lower

namespace Ember

namespace Expr

theorem foldedGroup_cases (inner : Expr) (loc : Location) :
    (∃ value, foldedGroup inner loc = .literal value loc) ∨
      foldedGroup inner loc = .group inner loc := by
  unfold foldedGroup
  split
  · exact .inl ⟨_, rfl⟩
  · exact .inr rfl

theorem foldedUnary_cases (op : UnaryOp) (operand : Expr) (loc : Location) :
    (∃ value, foldedUnary op operand loc = .literal value loc) ∨
      foldedUnary op operand loc = .unary op operand loc := by
  unfold foldedUnary
  split
  · exact .inl ⟨_, rfl⟩
  · exact .inr rfl

theorem foldedBinary_cases (op : BinaryOp) (left right : Expr) (loc : Location) :
    (∃ value, foldedBinary op left right loc = .literal value loc) ∨
      foldedBinary op left right loc = .binary op left right loc := by
  unfold foldedBinary
  split
  · split
    · exact .inl ⟨_, rfl⟩
    · exact .inr rfl
  · exact .inr rfl

theorem named?_eq_some_iff {e : Expr} {id : Int} :
    e.named? = some id ↔ ∃ loc, e.unparen = .var id loc := by
  unfold named?
  cases e.unparen <;> simp

end Expr

namespace Wat

variable {α β : Type}

theorem Except.bind_eq_ok {ε : Type} {x : Except ε α} {f : α → Except ε β} {b : β} :
    (x >>= f) = .ok b ↔ ∃ a, x = .ok a ∧ f a = .ok b := by
  cases x with
  | ok a => exact ⟨fun h => ⟨a, rfl, h⟩, fun ⟨_, ha, hb⟩ => by cases ha; exact hb⟩
  | error e => exact ⟨nofun, nofun⟩

theorem Lower.bind_eq_ok {x : Lower α} {f : α → Lower β} {p : Progress} {r : β × Progress} :
    (x >>= f) p = .ok r ↔ ∃ a p', x p = .ok (a, p') ∧ f a p' = .ok r := by
  refine Except.bind_eq_ok.trans ⟨?_, ?_⟩
  · rintro ⟨⟨a, p'⟩, ha, hr⟩
    exact ⟨a, p', ha, hr⟩
  · rintro ⟨a, p', ha, hr⟩
    exact ⟨(a, p'), ha, hr⟩

mutual

/-- How an expression is lowered at a place of the program. Operators on constants are replaced
by their results first, so that the expression may become a constant. -/
inductive Lowers (v : View) : Expr → List Instr → Prop where
  | constant {e : Expr} {value : Literal} {loc : Location} (hfold : e.fold = .literal value loc) :
      Lowers v e [.const value.word]
  | var {id : Int} {loc : Location} {slot : Slot} (hslot : v.lookup id = some slot) :
      Lowers v (.var id loc) [slot.place.get]
  | group {inner : Expr} {loc : Location} {code : List Instr}
      (hfold : (Expr.group inner loc).fold = .group inner.fold loc)
      (hinner : Lowers v inner code) : Lowers v (.group inner loc) code
  | assign {target value : Expr} {loc : Location} {id : Int} {slot : Slot} {code : List Instr}
      (htarget : target.named? = some id) (hslot : v.lookup id = some slot)
      (hvalue : Lowers v value code) :
      Lowers v (.assign target value loc) (code ++ narrowing slot.type ++ slot.place.tee)
  | neg {operand : Expr} {loc : Location} {code : List Instr}
      (hfold : (Expr.unary .neg operand loc).fold = .unary .neg operand.fold loc)
      (hoperand : Lowers v operand code) :
      Lowers v (.unary .neg operand loc) (.const 0 :: code ++ [.num .sub])
  | not {operand : Expr} {loc : Location} {code : List Instr}
      (hfold : (Expr.unary .not operand loc).fold = .unary .not operand.fold loc)
      (hoperand : Lowers v operand code) :
      Lowers v (.unary .not operand loc) (code ++ [.num .eqz, .num .extendI32U])
  | binary {op : BinaryOp} {left right : Expr} {loc : Location} {a b : List Instr}
      (hfold : (Expr.binary op left right loc).fold = .binary op left.fold right.fold loc)
      (hleft : Lowers v left a) (hright : Lowers v right b) :
      Lowers v (.binary op left right loc)
        (a ++ b ++ if v.isUnsigned left.fold || v.isUnsigned right.fold then unsignedOp op
          else signedOp op)
  | call {callee : Expr} {args : List Expr} {loc : Location} {id : Int} {f : FunctionDecl}
      {code : List Instr} (hcallee : callee.named? = some id) (hvar : v.lookup id = none)
      (hfunction : v.function? id = some f) (harity : f.params.length = args.length)
      (hargs : LowersAll v args code) :
      Lowers v (.call callee args loc) (code ++ [.call (.user f.id)])
  | print {callee : Expr} {args : List Expr} {loc : Location} {id : Int} {code : List Instr}
      (hcallee : callee.named? = some id) (hvar : v.lookup id = none)
      (hfunction : v.function? id = none) (hname : View.nameOf v.declared id = .ok "print")
      (hargs : LowersPrinted v args code) :
      Lowers v (.call callee args loc) (code ++ [.call .printNewline, .const 0])

/-- How the arguments of a call are lowered. -/
inductive LowersAll (v : View) : List Expr → List Instr → Prop where
  | nil : LowersAll v [] []
  | cons {e : Expr} {rest : List Expr} {code more : List Instr} (hhead : Lowers v e code)
      (hrest : LowersAll v rest more) : LowersAll v (e :: rest) (code ++ more)

/-- How the printing of expressions is lowered. -/
inductive LowersPrinted (v : View) : List Expr → List Instr → Prop where
  | nil : LowersPrinted v [] []
  | last {e : Expr} {code : List Instr} (hlast : Lowers v e code) :
      LowersPrinted v [e] (code ++ [.call (v.printer e.fold)])
  | cons {e : Expr} {rest : List Expr} {code more : List Instr} (hhead : Lowers v e code)
      (hmore : rest ≠ []) (hrest : LowersPrinted v rest more) :
      LowersPrinted v (e :: rest)
        (code ++ [.call (v.printer e.fold)] ++ .call .printSpace :: more)

end

theorem View.lookup_of_resolve {v : View} {id : Int} {loc : Location} {slot : Slot}
    (h : v.resolve id loc = .ok slot) : v.lookup id = some slot := by
  unfold resolve at h
  split at h
  · cases h
    assumption
  · obtain ⟨name, _, h⟩ := Except.bind_eq_ok.1 h
    split at h <;> cases h

/-- What a call may call: a function that no variable hides, with as many parameters as there
are arguments, or `print`. -/
theorem View.callee_eq_ok {v : View} {callee : Expr} {actual : Nat} {loc : Location}
    {found : Callee} (h : v.callee callee actual loc = .ok found) :
    ∃ id, callee.named? = some id ∧ v.lookup id = none ∧
      match found with
      | .function f => v.function? id = some f ∧ f.params.length = actual
      | .print => v.function? id = none ∧ View.nameOf v.declared id = .ok "print" := by
  unfold View.callee at h
  split at h
  · rename_i id calleeLoc hid
    refine ⟨id, Expr.named?_eq_some_iff.2 ⟨calleeLoc, hid⟩, ?_⟩
    obtain ⟨name, hname, h⟩ := Except.bind_eq_ok.1 h
    split at h
    · cases h
    · rename_i hvar
      refine ⟨by simpa using hvar, ?_⟩
      split at h
      · rename_i f hf
        split at h
        · rename_i harity
          cases h
          exact ⟨hf, harity⟩
        · cases h
      · rename_i hf
        split at h
        · rename_i hprint
          cases h
          exact ⟨hf, by rw [hname, hprint]⟩
        · cases h
  · cases h

mutual

theorem lowers_of_lowerExpr {v : View} : (e : Expr) → {code : List Instr} →
    lowerExpr v e.fold = .ok code → Lowers v e code
  | .literal value loc, code, h => by
    simp only [Expr.fold, lowerExpr] at h
    cases h
    exact .constant rfl
  | .var id loc, code, h => by
    simp only [Expr.fold, lowerExpr] at h
    obtain ⟨slot, hslot, h⟩ := Except.bind_eq_ok.1 h
    cases h
    exact .var (View.lookup_of_resolve hslot)
  | .group inner loc, code, h => by
    rcases Expr.foldedGroup_cases inner.fold loc with ⟨value, hvalue⟩ | hgroup
    · simp only [Expr.fold, hvalue, lowerExpr] at h
      cases h
      exact .constant (e := .group inner loc) hvalue
    · simp only [Expr.fold, hgroup, lowerExpr] at h
      exact .group hgroup (lowers_of_lowerExpr inner h)
  | .assign target value loc, code, h => by
    simp only [Expr.fold, lowerExpr] at h
    split at h
    · rename_i id at' htarget
      obtain ⟨slot, hslot, h⟩ := Except.bind_eq_ok.1 h
      obtain ⟨inner, hinner, h⟩ := Except.bind_eq_ok.1 h
      cases h
      exact .assign (Expr.named?_eq_some_iff.2 ⟨at', htarget⟩) (View.lookup_of_resolve hslot)
        (lowers_of_lowerExpr value hinner)
    · cases h
  | .unary op operand loc, code, h => by
    rcases Expr.foldedUnary_cases op operand.fold loc with ⟨value, hvalue⟩ | hunary
    · simp only [Expr.fold, hvalue, lowerExpr] at h
      cases h
      exact .constant (e := .unary op operand loc) hvalue
    · simp only [Expr.fold, hunary] at h
      cases op with
      | neg =>
        simp only [lowerExpr] at h
        obtain ⟨inner, hinner, h⟩ := Except.bind_eq_ok.1 h
        cases h
        exact .neg hunary (lowers_of_lowerExpr operand hinner)
      | not =>
        simp only [lowerExpr] at h
        obtain ⟨inner, hinner, h⟩ := Except.bind_eq_ok.1 h
        cases h
        exact .not hunary (lowers_of_lowerExpr operand hinner)
  | .binary op left right loc, code, h => by
    rcases Expr.foldedBinary_cases op left.fold right.fold loc with ⟨value, hvalue⟩ | hbinary
    · simp only [Expr.fold, hvalue, lowerExpr] at h
      cases h
      exact .constant (e := .binary op left right loc) hvalue
    · simp only [Expr.fold, hbinary, lowerExpr] at h
      obtain ⟨a, ha, h⟩ := Except.bind_eq_ok.1 h
      obtain ⟨b, hb, h⟩ := Except.bind_eq_ok.1 h
      cases h
      exact .binary hbinary (lowers_of_lowerExpr left ha) (lowers_of_lowerExpr right hb)
  | .call callee args loc, code, h => by
    simp only [Expr.fold, lowerExpr, Expr.length_foldAll] at h
    obtain ⟨found, hfound, h⟩ := Except.bind_eq_ok.1 h
    obtain ⟨id, hcallee, hvar, hfound⟩ := View.callee_eq_ok hfound
    rw [Expr.named?_fold] at hcallee
    cases found with
    | function f =>
      obtain ⟨inner, hinner, h⟩ := Except.bind_eq_ok.1 h
      cases h
      exact .call hcallee hvar hfound.1 hfound.2 (lowers_of_lowerArgs args hinner)
    | print =>
      obtain ⟨inner, hinner, h⟩ := Except.bind_eq_ok.1 h
      cases h
      exact .print hcallee hvar hfound.1 hfound.2 (lowers_of_lowerPrinted args hinner)

theorem lowers_of_lowerArgs {v : View} : (es : List Expr) → {code : List Instr} →
    lowerArgs v (Expr.foldAll es) = .ok code → LowersAll v es code
  | [], code, h => by
    simp only [Expr.foldAll, lowerArgs] at h
    cases h
    exact .nil
  | e :: rest, code, h => by
    simp only [Expr.foldAll, lowerArgs] at h
    obtain ⟨head, hhead, h⟩ := Except.bind_eq_ok.1 h
    obtain ⟨more, hmore, h⟩ := Except.bind_eq_ok.1 h
    cases h
    exact .cons (lowers_of_lowerExpr e hhead) (lowers_of_lowerArgs rest hmore)

theorem lowers_of_lowerPrinted {v : View} : (es : List Expr) → {code : List Instr} →
    lowerPrinted v (Expr.foldAll es) = .ok code → LowersPrinted v es code
  | [], code, h => by
    simp only [Expr.foldAll, lowerPrinted] at h
    cases h
    exact .nil
  | e :: rest, code, h => by
    simp only [Expr.foldAll, lowerPrinted] at h
    split at h
    · cases h
    · obtain ⟨head, hhead, h⟩ := Except.bind_eq_ok.1 h
      have he := lowers_of_lowerExpr e hhead
      cases rest with
      | nil =>
        cases h
        exact .last he
      | cons e' rest =>
        obtain ⟨more, hmore, h⟩ := Except.bind_eq_ok.1 h
        cases h
        exact .cons he nofun (lowers_of_lowerPrinted (e' :: rest) hmore)

end

/-- How an expression that may be absent is lowered. -/
inductive LowersOr (v : View) : Option Expr → List Instr → Prop where
  | none : LowersOr v none [.const 0]
  | some {e : Expr} {code : List Instr} (he : Lowers v e code) : LowersOr v (some e) code

/-- The variables of a place among the statements of a function or of the program itself. -/
abbrev Progress.view (declared : Declared) (role : Role) (p : Progress) : View :=
  ⟨declared, role, p.scopes⟩

/-- Declarations here are those of the program itself. -/
def Progress.IsTop (role : Role) (p : Progress) : Prop := role = .start ∧ p.scopes.length = 1

mutual

/-- How a statement is lowered: its code, and how it changes what is in scope and the numbers
in use. -/
inductive LowersStmt (declared : Declared) (role : Role) :
    Progress → Stmt → List Instr → Progress → Prop where
  | function {p : Progress} {id : Int} {params : List Param} {result : Datatype}
      {body : List Stmt} {bodyLoc loc : Location} (htop : p.IsTop role) :
      LowersStmt declared role p (.function id params result body bodyLoc loc) [] p
  | global {p : Progress} {top : Scope} {id : Int} {type : Datatype} {init : Option Expr}
      {loc : Location} {code : List Instr} (hrole : role = .start) (hscopes : p.scopes = [top])
      (hinit : LowersOr (p.view declared role) init code) :
      LowersStmt declared role p (.var id type init loc)
        (code ++ narrowing type ++ [.globalSet id])
        { p with scopes := [(id, ⟨.global id, type⟩) :: top] }
  | local {p : Progress} {scope : Scope} {rest : List Scope} {id : Int} {type : Datatype}
      {init : Option Expr} {loc : Location} {code : List Instr} (htop : ¬p.IsTop role)
      (hscopes : p.scopes = scope :: rest) (hinit : LowersOr (p.view declared role) init code) :
      LowersStmt declared role p (.var id type init loc)
        (code ++ narrowing type ++ [.localSet (.temp p.locals)])
        { p with
          scopes := ((id, ⟨.local (.temp p.locals), type⟩) :: scope) :: rest
          locals := p.locals + 1 }
  | block {p p' : Progress} {body : List Stmt} {loc : Location} {code : List Instr}
      (hbody : LowersStmts declared role { p with scopes := [] :: p.scopes } body code p') :
      LowersStmt declared role p (.block body loc) code { p' with scopes := p'.scopes.tail }
  | ifThen {p p' : Progress} {cond : Expr} {body : Stmt} {loc : Location}
      {test code : List Instr} (hcond : Lowers (p.view declared role) cond test)
      (hbody : LowersStmt declared role p body code p') :
      LowersStmt declared role p (.conditional cond body none loc)
        (test ++ [.const 0, .num .ne, .cond code none]) p'
  | ifElse {p p' p'' : Progress} {cond : Expr} {body other : Stmt} {loc : Location}
      {test code code' : List Instr} (hcond : Lowers (p.view declared role) cond test)
      (hbody : LowersStmt declared role p body code p')
      (hother : LowersStmt declared role p' other code' p'') :
      LowersStmt declared role p (.conditional cond body (some other) loc)
        (test ++ [.const 0, .num .ne, .cond code (some code')]) p''
  | loop {p p' : Progress} {cond : Expr} {body : Stmt} {loc : Location} {test code : List Instr}
      (hcond : Lowers (p.view declared role) cond test)
      (hbody : LowersStmt declared role { p with loops := p.loops + 1 } body code p') :
      LowersStmt declared role p (.loop cond body loc) [whileLoop (p.loops + 1) test code] p'
  | returning {p : Progress} {value : Option Expr} {loc : Location} {code : List Instr}
      (hvalue : LowersOr (p.view declared role) value code) :
      LowersStmt declared role p (.returning value loc) (code ++ leaving role) p
  | expr {p : Progress} {e : Expr} {loc : Location} {code : List Instr}
      (he : Lowers (p.view declared role) e code) :
      LowersStmt declared role p (.expr e loc) (code ++ [.drop]) p

/-- How statements are lowered, one after the other. -/
inductive LowersStmts (declared : Declared) (role : Role) :
    Progress → List Stmt → List Instr → Progress → Prop where
  | nil {p : Progress} : LowersStmts declared role p [] [] p
  | cons {p p' p'' : Progress} {s : Stmt} {rest : List Stmt} {code more : List Instr}
      (hhead : LowersStmt declared role p s code p')
      (hrest : LowersStmts declared role p' rest more p'') :
      LowersStmts declared role p (s :: rest) (code ++ more) p''

end

section

variable {declared : Declared} {role : Role}

theorem Lower.expr_eq_ok {e : Expr} {p p' : Progress} {code : List Instr}
    (h : Lower.expr declared role e.fold p = .ok (code, p')) :
    p = p' ∧ Lowers (p.view declared role) e code := by
  obtain ⟨v, p', hview, h⟩ := Lower.bind_eq_ok.1 h
  cases hview
  obtain ⟨code, hcode, h⟩ := Except.bind_eq_ok.1 h
  cases h
  exact ⟨rfl, lowers_of_lowerExpr e hcode⟩

theorem Lower.exprOr_eq_ok {e : Option Expr} {p p' : Progress} {code : List Instr}
    (h : Lower.exprOr declared role (e.map Expr.fold) p = .ok (code, p')) :
    p = p' ∧ LowersOr (p.view declared role) e code := by
  cases e with
  | none =>
    cases h
    exact ⟨rfl, .none⟩
  | some e =>
    obtain ⟨hp, hcode⟩ := expr_eq_ok h
    exact ⟨hp, .some hcode⟩

/-- Lowering goes on in the scopes around the innermost one, and only takes new numbers. -/
structure Progress.Grows (p p' : Progress) : Prop where
  tail_eq : p'.scopes.tail = p.scopes.tail
  scopes_ne : p.scopes ≠ [] → p'.scopes ≠ []
  locals_le : p.locals ≤ p'.locals
  loops_le : p.loops ≤ p'.loops

namespace Progress.Grows

variable {p p' p'' : Progress}

theorem refl (p : Progress) : p.Grows p := ⟨rfl, id, Nat.le_refl _, Nat.le_refl _⟩

theorem trans (h : p.Grows p') (h' : p'.Grows p'') : p.Grows p'' :=
  ⟨h'.tail_eq.trans h.tail_eq, h'.scopes_ne ∘ h.scopes_ne, Nat.le_trans h.locals_le h'.locals_le,
    Nat.le_trans h.loops_le h'.loops_le⟩

/-- Whatever happens in a scope of its own, the scopes are the same after it. -/
theorem of_inner {scope : Scope} (h : Grows { p with scopes := scope :: p.scopes } p') :
    p.Grows { p' with scopes := p'.scopes.tail } :=
  ⟨congrArg List.tail h.tail_eq, fun hne => h.tail_eq ▸ hne, h.locals_le, h.loops_le⟩

end Progress.Grows

mutual

theorem LowersStmt.grows {p p' : Progress} {code : List Instr} :
    {s : Stmt} → LowersStmt declared role p s code p' → p.Grows p'
  | _, .function _ | _, .returning _ | _, .expr _ => .refl _
  | _, .global _ hscopes _ => ⟨by rw [hscopes]; rfl, nofun, Nat.le_refl _, Nat.le_refl _⟩
  | _, .local _ hscopes _ => ⟨by rw [hscopes]; rfl, nofun, Nat.le_succ _, Nat.le_refl _⟩
  | _, .block hbody => hbody.grows.of_inner
  | _, .ifThen _ hbody => hbody.grows
  | _, .ifElse _ hbody hother => hbody.grows.trans hother.grows
  | _, .loop _ hbody =>
    ⟨hbody.grows.tail_eq, hbody.grows.scopes_ne, hbody.grows.locals_le,
      Nat.le_of_succ_le hbody.grows.loops_le⟩

theorem LowersStmts.grows {p p' : Progress} {code : List Instr} :
    {ss : List Stmt} → LowersStmts declared role p ss code p' → p.Grows p'
  | _, .nil => .refl _
  | _, .cons hhead hrest => hhead.grows.trans hrest.grows

end

theorem Lower.isTopLevel_eq_ok {p : Progress} {top : Bool} {p' : Progress}
    (h : Lower.isTopLevel role p = .ok (top, p')) : p = p' ∧ (top = true ↔ p.IsTop role) := by
  cases h
  exact ⟨rfl, by simp [Progress.IsTop]⟩

mutual

/-- A statement whose operators on constants are replaced has a lowering only as described. -/
theorem lowers_of_lowerStmt : (s : Stmt) → {p p' : Progress} → {code : List Instr} →
    p.scopes ≠ [] → lowerStmt declared role s.fold p = .ok (code, p') →
    LowersStmt declared role p s code p'
  | .function id params result body bodyLoc loc, p, p', code, hne, h => by
    simp only [Stmt.fold, lowerStmt] at h
    obtain ⟨top, p₁, hrun, h⟩ := Lower.bind_eq_ok.1 h
    obtain ⟨rfl, htop⟩ := Lower.isTopLevel_eq_ok hrun
    split at h
    · rename_i hyes
      cases h
      exact .function (htop.1 hyes)
    · obtain ⟨name, p₂, _, h⟩ := Lower.bind_eq_ok.1 h
      cases h
  | .var id type init loc, p, p', code, hne, h => by
    simp only [Stmt.fold, lowerStmt] at h
    obtain ⟨value, p₁, hrun, h⟩ := Lower.bind_eq_ok.1 h
    obtain ⟨rfl, hvalue⟩ := Lower.exprOr_eq_ok hrun
    obtain ⟨place, p₂, hplace, h⟩ := Lower.bind_eq_ok.1 h
    obtain ⟨top, p₃, hrun, hplace⟩ := Lower.bind_eq_ok.1 hplace
    obtain ⟨rfl, htop⟩ := Lower.isTopLevel_eq_ok hrun
    obtain ⟨scope, rest, hscopes⟩ := List.exists_cons_of_ne_nil hne
    split at hplace
    · rename_i hyes
      obtain ⟨hrole, hlength⟩ := htop.1 hyes
      cases hplace
      have hrest : rest = [] := by simpa [hscopes] using hlength
      subst hrest
      cases h
      simp only [hscopes]
      exact .global hrole hscopes hvalue
    · rename_i hno
      cases hplace
      cases h
      simp only [hscopes]
      exact .local (mt htop.2 hno) hscopes hvalue
  | .block body loc, p, p', code, hne, h => by
    simp only [Stmt.fold, lowerStmt] at h
    obtain ⟨_, p₁, hpush, h⟩ := Lower.bind_eq_ok.1 h
    cases hpush
    obtain ⟨inner, p₂, hbody, h⟩ := Lower.bind_eq_ok.1 h
    cases h
    exact .block (lowers_of_lowerStmts body nofun hbody)
  | .conditional cond body none loc, p, p', code, hne, h => by
    simp only [Stmt.fold, lowerStmt] at h
    obtain ⟨test, p₁, hrun, h⟩ := Lower.bind_eq_ok.1 h
    obtain ⟨rfl, htest⟩ := Lower.expr_eq_ok hrun
    obtain ⟨inner, p₂, hbody, h⟩ := Lower.bind_eq_ok.1 h
    cases h
    exact .ifThen htest (lowers_of_lowerStmt body hne hbody)
  | .conditional cond body (some other) loc, p, p', code, hne, h => by
    simp only [Stmt.fold, lowerStmt] at h
    obtain ⟨test, p₁, hrun, h⟩ := Lower.bind_eq_ok.1 h
    obtain ⟨rfl, htest⟩ := Lower.expr_eq_ok hrun
    obtain ⟨inner, p₂, hbody, h⟩ := Lower.bind_eq_ok.1 h
    obtain ⟨inner', p₃, hother, h⟩ := Lower.bind_eq_ok.1 h
    have hbody := lowers_of_lowerStmt body hne hbody
    cases h
    exact .ifElse htest hbody (lowers_of_lowerStmt other (hbody.grows.scopes_ne hne) hother)
  | .loop cond body loc, p, p', code, hne, h => by
    simp only [Stmt.fold, lowerStmt] at h
    obtain ⟨n, p₁, hn, h⟩ := Lower.bind_eq_ok.1 h
    cases hn
    obtain ⟨test, p₂, hrun, h⟩ := Lower.bind_eq_ok.1 h
    obtain ⟨rfl, htest⟩ := Lower.expr_eq_ok hrun
    obtain ⟨inner, p₃, hbody, h⟩ := Lower.bind_eq_ok.1 h
    cases h
    exact .loop htest (lowers_of_lowerStmt body hne hbody)
  | .returning value loc, p, p', code, hne, h => by
    simp only [Stmt.fold, lowerStmt] at h
    obtain ⟨inner, p₁, hrun, h⟩ := Lower.bind_eq_ok.1 h
    obtain ⟨rfl, hvalue⟩ := Lower.exprOr_eq_ok hrun
    cases h
    exact .returning hvalue
  | .expr e loc, p, p', code, hne, h => by
    simp only [Stmt.fold, lowerStmt] at h
    obtain ⟨inner, p₁, hrun, h⟩ := Lower.bind_eq_ok.1 h
    obtain ⟨rfl, he⟩ := Lower.expr_eq_ok hrun
    cases h
    exact .expr he

theorem lowers_of_lowerStmts : (ss : List Stmt) → {p p' : Progress} → {code : List Instr} →
    p.scopes ≠ [] → lowerStmts declared role (Stmt.foldAll ss) p = .ok (code, p') →
    LowersStmts declared role p ss code p'
  | [], p, p', code, hne, h => by
    simp only [Stmt.foldAll, lowerStmts] at h
    cases h
    exact .nil
  | s :: rest, p, p', code, hne, h => by
    simp only [Stmt.foldAll, lowerStmts] at h
    obtain ⟨head, p₁, hhead, h⟩ := Lower.bind_eq_ok.1 h
    obtain ⟨more, p₂, hrest, h⟩ := Lower.bind_eq_ok.1 h
    have hhead := lowers_of_lowerStmt s hne hhead
    cases h
    exact .cons hhead (lowers_of_lowerStmts rest (hhead.grows.scopes_ne hne) hrest)

end

end

end Wat

end Ember
