import Ember.Format.Program
import Mathlib.Data.List.Forall2
import Mathlib.Data.Option.Basic

namespace Ember

section

variable (r : Int → Int → Prop) (q : Location → Location → Prop)

mutual

/-- The expressions are the same but for the ids of their names, which correspond by `r`, and for
their places, which correspond by `q`. -/
inductive Expr.Alike : Expr → Expr → Prop
  | assign {target target' value value' : Expr} {loc loc' : Location}
    (htarget : Expr.Alike target target') (hvalue : Expr.Alike value value') (hloc : q loc loc') :
    Expr.Alike (.assign target value loc) (.assign target' value' loc')
  | binary {op : BinaryOp} {left left' right right' : Expr} {loc loc' : Location}
    (hleft : Expr.Alike left left') (hright : Expr.Alike right right') (hloc : q loc loc') :
    Expr.Alike (.binary op left right loc) (.binary op left' right' loc')
  | unary {op : UnaryOp} {operand operand' : Expr} {loc loc' : Location}
    (hoperand : Expr.Alike operand operand') (hloc : q loc loc') :
    Expr.Alike (.unary op operand loc) (.unary op operand' loc')
  | call {callee callee' : Expr} {args args' : List Expr} {loc loc' : Location}
    (hcallee : Expr.Alike callee callee') (hargs : Expr.AlikeAll args args') (hloc : q loc loc') :
    Expr.Alike (.call callee args loc) (.call callee' args' loc')
  | group {inner inner' : Expr} {loc loc' : Location} (hinner : Expr.Alike inner inner')
    (hloc : q loc loc') : Expr.Alike (.group inner loc) (.group inner' loc')
  | var {id id' : Int} {loc loc' : Location} (hid : r id id') (hloc : q loc loc') :
    Expr.Alike (.var id loc) (.var id' loc')
  | literal {value : Literal} {loc loc' : Location} (hloc : q loc loc') :
    Expr.Alike (.literal value loc) (.literal value loc')

inductive Expr.AlikeAll : List Expr → List Expr → Prop
  | nil : Expr.AlikeAll [] []
  | cons {e e' : Expr} {rest rest' : List Expr} (he : Expr.Alike e e')
    (hrest : Expr.AlikeAll rest rest') : Expr.AlikeAll (e :: rest) (e' :: rest')

end

structure Param.Alike (p p' : Param) : Prop where
  id : r p.id p'.id
  type : p.type = p'.type
  loc : q p.loc p'.loc

mutual

inductive Stmt.Alike : Stmt → Stmt → Prop
  | function {id id' : Int} {params params' : List Param} {result : Datatype}
    {body body' : List Stmt} {bodyLoc bodyLoc' loc loc' : Location} (hid : r id id')
    (hparams : List.Forall₂ (Param.Alike r q) params params') (hbody : Stmt.AlikeAll body body')
    (hbodyLoc : q bodyLoc bodyLoc') (hloc : q loc loc') :
    Stmt.Alike (.function id params result body bodyLoc loc)
      (.function id' params' result body' bodyLoc' loc')
  | var {id id' : Int} {type : Datatype} {init init' : Option Expr} {loc loc' : Location}
    (hid : r id id') (hinit : Option.Rel (Expr.Alike r q) init init') (hloc : q loc loc') :
    Stmt.Alike (.var id type init loc) (.var id' type init' loc')
  | block {body body' : List Stmt} {loc loc' : Location} (hbody : Stmt.AlikeAll body body')
    (hloc : q loc loc') : Stmt.Alike (.block body loc) (.block body' loc')
  | ifThen {cond cond' : Expr} {body body' : Stmt} {loc loc' : Location}
    (hcond : Expr.Alike r q cond cond') (hbody : Stmt.Alike body body') (hloc : q loc loc') :
    Stmt.Alike (.conditional cond body none loc) (.conditional cond' body' none loc')
  | ifElse {cond cond' : Expr} {body body' other other' : Stmt} {loc loc' : Location}
    (hcond : Expr.Alike r q cond cond') (hbody : Stmt.Alike body body')
    (hother : Stmt.Alike other other') (hloc : q loc loc') :
    Stmt.Alike (.conditional cond body (some other) loc)
      (.conditional cond' body' (some other') loc')
  | loop {cond cond' : Expr} {body body' : Stmt} {loc loc' : Location}
    (hcond : Expr.Alike r q cond cond') (hbody : Stmt.Alike body body') (hloc : q loc loc') :
    Stmt.Alike (.loop cond body loc) (.loop cond' body' loc')
  | returning {value value' : Option Expr} {loc loc' : Location}
    (hvalue : Option.Rel (Expr.Alike r q) value value') (hloc : q loc loc') :
    Stmt.Alike (.returning value loc) (.returning value' loc')
  | expr {e e' : Expr} {loc loc' : Location} (he : Expr.Alike r q e e') (hloc : q loc loc') :
    Stmt.Alike (.expr e loc) (.expr e' loc')

inductive Stmt.AlikeAll : List Stmt → List Stmt → Prop
  | nil : Stmt.AlikeAll [] []
  | cons {s s' : Stmt} {rest rest' : List Stmt} (hs : Stmt.Alike s s')
    (hrest : Stmt.AlikeAll rest rest') : Stmt.AlikeAll (s :: rest) (s' :: rest')

end

end

section

variable {r r' : Int → Int → Prop} {q : Location → Location → Prop}

mutual

/-- More numbers may correspond, as when more names are met. -/
theorem Expr.Alike.widen (hr : ∀ a b, r a b → r' a b) :
    ∀ {e e' : Expr}, Expr.Alike r q e e' → Expr.Alike r' q e e'
  | _, _, .assign htarget hvalue hloc => .assign (htarget.widen hr) (hvalue.widen hr) hloc
  | _, _, .binary hleft hright hloc => .binary (hleft.widen hr) (hright.widen hr) hloc
  | _, _, .unary hoperand hloc => .unary (hoperand.widen hr) hloc
  | _, _, .call hcallee hargs hloc => .call (hcallee.widen hr) (hargs.widen hr) hloc
  | _, _, .group hinner hloc => .group (hinner.widen hr) hloc
  | _, _, .var hid hloc => .var (hr _ _ hid) hloc
  | _, _, .literal hloc => .literal hloc

theorem Expr.AlikeAll.widen (hr : ∀ a b, r a b → r' a b) :
    ∀ {es es' : List Expr}, Expr.AlikeAll r q es es' → Expr.AlikeAll r' q es es'
  | _, _, .nil => .nil
  | _, _, .cons he hrest => .cons (he.widen hr) (hrest.widen hr)

end

theorem Expr.Alike.option_widen (hr : ∀ a b, r a b → r' a b) {e e' : Option Expr}
    (h : Option.Rel (Expr.Alike r q) e e') : Option.Rel (Expr.Alike r' q) e e' := by
  cases h with
  | none => exact .none
  | some h => exact .some (h.widen hr)

theorem Param.Alike.widen (hr : ∀ a b, r a b → r' a b) {p p' : Param} (h : p.Alike r q p') :
    p.Alike r' q p' :=
  ⟨hr _ _ h.id, h.type, h.loc⟩

mutual

theorem Stmt.Alike.widen (hr : ∀ a b, r a b → r' a b) :
    ∀ {s s' : Stmt}, Stmt.Alike r q s s' → Stmt.Alike r' q s s'
  | _, _, .function hid hparams hbody hbodyLoc hloc =>
    .function (hr _ _ hid) (hparams.imp fun _ _ h => h.widen hr) (hbody.widen hr) hbodyLoc hloc
  | _, _, .var hid hinit hloc => .var (hr _ _ hid) (Expr.Alike.option_widen hr hinit) hloc
  | _, _, .block hbody hloc => .block (hbody.widen hr) hloc
  | _, _, .ifThen hcond hbody hloc => .ifThen (hcond.widen hr) (hbody.widen hr) hloc
  | _, _, .ifElse hcond hbody hother hloc =>
    .ifElse (hcond.widen hr) (hbody.widen hr) (hother.widen hr) hloc
  | _, _, .loop hcond hbody hloc => .loop (hcond.widen hr) (hbody.widen hr) hloc
  | _, _, .returning hvalue hloc => .returning (Expr.Alike.option_widen hr hvalue) hloc
  | _, _, .expr he hloc => .expr (he.widen hr) hloc

theorem Stmt.AlikeAll.widen (hr : ∀ a b, r a b → r' a b) :
    ∀ {ss ss' : List Stmt}, Stmt.AlikeAll r q ss ss' → Stmt.AlikeAll r' q ss ss'
  | _, _, .nil => .nil
  | _, _, .cons hs hrest => .cons (hs.widen hr) (hrest.widen hr)

end

theorem Expr.alikeAll_of_forall₂ {es es' : List Expr} (h : List.Forall₂ (Expr.Alike r q) es es') :
    Expr.AlikeAll r q es es' := by
  induction h with
  | nil => exact .nil
  | cons he _ ih => exact .cons he ih

theorem Stmt.alikeAll_of_forall₂ {ss ss' : List Stmt} (h : List.Forall₂ (Stmt.Alike r q) ss ss') :
    Stmt.AlikeAll r q ss ss' := by
  induction h with
  | nil => exact .nil
  | cons hs _ ih => exact .cons hs ih

theorem Expr.Alike.loc {e e' : Expr} (h : Expr.Alike r q e e') : q e.loc e'.loc := by
  cases h <;> assumption

theorem Stmt.Alike.loc {s s' : Stmt} (h : Stmt.Alike r q s s') : q s.loc s'.loc := by
  cases h <;> assumption

theorem Stmt.AlikeAll.append {as as' bs bs' : List Stmt} (ha : Stmt.AlikeAll r q as as')
    (hb : Stmt.AlikeAll r q bs bs') : Stmt.AlikeAll r q (as ++ bs) (as' ++ bs') := by
  match ha with
  | .nil => exact hb
  | .cons hs hrest => exact .cons hs (hrest.append hb)

theorem Expr.AlikeAll.append {as as' bs bs' : List Expr} (ha : Expr.AlikeAll r q as as')
    (hb : Expr.AlikeAll r q bs bs') : Expr.AlikeAll r q (as ++ bs) (as' ++ bs') := by
  match ha with
  | .nil => exact hb
  | .cons he hrest => exact .cons he (hrest.append hb)

theorem Expr.AlikeAll.length_eq {es es' : List Expr} (h : Expr.AlikeAll r q es es') :
    es.length = es'.length := by
  match h with
  | .nil => rfl
  | .cons _ hrest => exact congrArg (· + 1) hrest.length_eq

end

section

mutual

theorem Expr.Alike.eq : ∀ {e e' : Expr}, Expr.Alike Eq Eq e e' → e = e'
  | _, _, .assign htarget hvalue hloc => by rw [htarget.eq, hvalue.eq, hloc]
  | _, _, .binary hleft hright hloc => by rw [hleft.eq, hright.eq, hloc]
  | _, _, .unary hoperand hloc => by rw [hoperand.eq, hloc]
  | _, _, .call hcallee hargs hloc => by rw [hcallee.eq, hargs.eq, hloc]
  | _, _, .group hinner hloc => by rw [hinner.eq, hloc]
  | _, _, .var hid hloc => by rw [hid, hloc]
  | _, _, .literal hloc => by rw [hloc]

theorem Expr.AlikeAll.eq : ∀ {es es' : List Expr}, Expr.AlikeAll Eq Eq es es' → es = es'
  | _, _, .nil => rfl
  | _, _, .cons he hrest => by rw [he.eq, hrest.eq]

end

theorem Expr.Alike.option_eq {e e' : Option Expr} (h : Option.Rel (Expr.Alike Eq Eq) e e') :
    e = e' := by
  cases h with
  | none => rfl
  | some h => rw [h.eq]

theorem Param.Alike.eq_all {ps ps' : List Param} (h : List.Forall₂ (Param.Alike Eq Eq) ps ps') :
    ps = ps' := by
  induction h with
  | nil => rfl
  | @cons p p' _ _ hp _ ih =>
    obtain ⟨id, type, loc⟩ := p
    obtain ⟨id', type', loc'⟩ := p'
    obtain ⟨rfl, rfl, rfl⟩ := hp
    rw [ih]

mutual

theorem Stmt.Alike.eq : ∀ {s s' : Stmt}, Stmt.Alike Eq Eq s s' → s = s'
  | _, _, .function hid hparams hbody hbodyLoc hloc => by
    rw [hid, Param.Alike.eq_all hparams, hbody.eq, hbodyLoc, hloc]
  | _, _, .var hid hinit hloc => by rw [hid, Expr.Alike.option_eq hinit, hloc]
  | _, _, .block hbody hloc => by rw [hbody.eq, hloc]
  | _, _, .ifThen hcond hbody hloc => by rw [hcond.eq, hbody.eq, hloc]
  | _, _, .ifElse hcond hbody hother hloc => by rw [hcond.eq, hbody.eq, hother.eq, hloc]
  | _, _, .loop hcond hbody hloc => by rw [hcond.eq, hbody.eq, hloc]
  | _, _, .returning hvalue hloc => by rw [Expr.Alike.option_eq hvalue, hloc]
  | _, _, .expr he hloc => by rw [he.eq, hloc]

theorem Stmt.AlikeAll.eq : ∀ {ss ss' : List Stmt}, Stmt.AlikeAll Eq Eq ss ss' → ss = ss'
  | _, _, .nil => rfl
  | _, _, .cons hs hrest => by rw [hs.eq, hrest.eq]

end

end

section

variable {r : Int → Int → Prop} {q : Location → Location → Prop} {name name' : Int → String}

namespace Expr.Alike

variable {e e' : Expr}

theorem isOperation_eq (h : Expr.Alike r q e e') : e.isOperation = e'.isOperation := by
  cases h <;> rfl

theorem needsParensAsCallee_eq (h : Expr.Alike r q e e') :
    e.needsParensAsCallee = e'.needsParensAsCallee := by
  cases h <;> rfl

theorem needsParensBeside_eq (h : Expr.Alike r q e e') (precedence : Nat) (right : Bool) :
    e.needsParensBeside precedence right = e'.needsParensBeside precedence right := by
  cases h <;> rfl

end Expr.Alike

mutual

theorem Expr.Alike.fragments_eq (hname : ∀ a b, r a b → name a = name' b) :
    ∀ {e e' : Expr}, Expr.Alike r q e e' → e.fragments name = e'.fragments name'
  | _, _, .literal _ => rfl
  | _, _, .var hid _ => by simp only [Expr.fragments, hname _ _ hid]
  | _, _, .group hinner _ => by simp only [Expr.fragments, hinner.fragments_eq hname]
  | _, _, .assign htarget hvalue _ => by
    simp only [Expr.fragments, htarget.fragments_eq hname, hvalue.fragments_eq hname]
  | _, _, .unary hoperand _ => by
    simp only [Expr.fragments, hoperand.isOperation_eq, hoperand.fragments_eq hname]
  | _, _, .binary hleft hright _ => by
    simp only [Expr.fragments, hleft.needsParensBeside_eq, hright.needsParensBeside_eq,
      hleft.fragments_eq hname, hright.fragments_eq hname]
  | _, _, .call hcallee hargs _ => by
    simp only [Expr.fragments, hcallee.needsParensAsCallee_eq, hcallee.fragments_eq hname,
      hargs.fragmentLists_eq hname]

theorem Expr.AlikeAll.fragmentLists_eq (hname : ∀ a b, r a b → name a = name' b) :
    ∀ {es es' : List Expr}, Expr.AlikeAll r q es es' →
      Expr.fragmentLists name es = Expr.fragmentLists name' es'
  | _, _, .nil => rfl
  | _, _, .cons he hrest => by
    simp only [Expr.fragmentLists, he.fragments_eq hname, hrest.fragmentLists_eq hname]

end

theorem Param.Alike.fragments_eq (hname : ∀ a b, r a b → name a = name' b) {ps ps' : List Param}
    (h : List.Forall₂ (Param.Alike r q) ps ps') :
    ps.map (Param.fragments name) = ps'.map (Param.fragments name') := by
  induction h with
  | nil => rfl
  | cons hp _ ih => simp only [List.map_cons, Param.fragments, hp.type, hname _ _ hp.id, ih]

namespace Stmt.Alike

variable {s s' : Stmt}

theorem isBlock_eq (h : Stmt.Alike r q s s') : s.isBlock = s'.isBlock := by cases h <;> rfl

theorem isConditional_eq (h : Stmt.Alike r q s s') : s.isConditional = s'.isConditional := by
  cases h <;> rfl

theorem isFunction_eq (h : Stmt.Alike r q s s') : s.isFunction = s'.isFunction := by
  cases h <;> rfl

end Stmt.Alike

mutual

theorem Stmt.Alike.fragments_eq (hname : ∀ a b, r a b → name a = name' b) :
    ∀ {s s' : Stmt}, Stmt.Alike r q s s' → s.fragments name = s'.fragments name'
  | _, _, .function hid hparams hbody _ _ => by
    funext indent
    simp only [Stmt.fragments, hname _ _ hid, Param.Alike.fragments_eq hname hparams,
      hbody.fragmentLists_eq hname]
  | _, _, .var hid hinit _ => by
    funext indent
    cases hinit with
    | none => simp only [Stmt.fragments, hname _ _ hid]
    | some he => simp only [Stmt.fragments, hname _ _ hid, he.fragments_eq hname]
  | _, _, .block hbody _ => by
    funext indent
    simp only [Stmt.fragments, hbody.fragmentLists_eq hname]
  | _, _, .ifThen hcond hbody _ => by
    funext indent
    simp only [Stmt.fragments, Fragment.hanging, hcond.fragments_eq hname, hbody.isBlock_eq,
      hbody.fragments_eq hname]
  | _, _, .ifElse hcond hbody hother _ => by
    funext indent
    simp only [Stmt.fragments, Fragment.hanging, Fragment.alternative, Fragment.beforeAlternative,
      hcond.fragments_eq hname, hbody.isBlock_eq, hbody.fragments_eq hname, hother.isBlock_eq,
      hother.isConditional_eq, hother.fragments_eq hname]
  | _, _, .loop hcond hbody _ => by
    funext indent
    simp only [Stmt.fragments, Fragment.hanging, hcond.fragments_eq hname, hbody.isBlock_eq,
      hbody.fragments_eq hname]
  | _, _, .returning hvalue _ => by
    funext indent
    cases hvalue with
    | none => rfl
    | some he => simp only [Stmt.fragments, he.fragments_eq hname]
  | _, _, .expr he _ => by
    funext indent
    simp only [Stmt.fragments, he.fragments_eq hname]

theorem Stmt.AlikeAll.fragmentLists_eq (hname : ∀ a b, r a b → name a = name' b) :
    ∀ {ss ss' : List Stmt}, Stmt.AlikeAll r q ss ss' →
      Stmt.fragmentLists name ss = Stmt.fragmentLists name' ss'
  | _, _, .nil => rfl
  | _, _, .cons hs hrest => by
    funext indent
    simp only [Stmt.fragmentLists, hs.fragments_eq hname, hrest.fragmentLists_eq hname]

end

theorem Stmt.AlikeAll.programFragments_eq (hname : ∀ a b, r a b → name a = name' b)
    {ss ss' : List Stmt} (h : Stmt.AlikeAll r q ss ss') :
    Stmt.programFragments name ss = Stmt.programFragments name' ss' := by
  match h with
  | .nil => rfl
  | .cons hs .nil => simp only [Stmt.programFragments, hs.fragments_eq hname]
  | .cons hs (.cons hs' hrest) =>
    have ih := (Stmt.AlikeAll.cons hs' hrest).programFragments_eq hname
    simp only [Stmt.programFragments, hs.fragments_eq hname, hs.isFunction_eq, ih]

end

end Ember
