import Ember.Proofs.Fold.Run
import Ember.Proofs.Surface.Frames

namespace Ember

open Exec

namespace Exec

variable {α α' β β' : Type}

/-- Two runs have printed the same and, if they stop early, stop for the same reason. Frames keep
their places. -/
inductive Abreast (w : Placement) (R : Placement → α → α' → Prop) :
    EStateM.Result Halt Machine α → EStateM.Result Halt Machine α' → Prop
  | ok {w' : Placement} {a : α} {a' : α'} {m m' : Machine} (hw : w.Grows w') (ha : R w' a a')
    (hm : m.Placed w' m') : Abreast w R (.ok a m) (.ok a' m')
  | error {w' : Placement} {h : Halt} {m m' : Machine} (hw : w.Grows w') (hm : m.Placed w' m') :
    Abreast w R (.error h m) (.error h m')

/-- The second computation does on the second machine what the first does on the first. -/
def Placed (w : Placement) (R : Placement → α → α' → Prop) (p : Exec α) (p' : Exec α') : Prop :=
  ∀ m m' : Machine, m.Placed w m' → Abreast w R (p m) (p' m')

/-- Results that are equal. -/
abbrev Same (_ : Placement) (a a' : α) : Prop := a = a'

abbrev Placed.Done (_ : Placement) (_ _ : Unit) : Prop := True

theorem Abreast.grow {w₀ w : Placement} {R : Placement → α → α' → Prop}
    {x : EStateM.Result Halt Machine α} {x' : EStateM.Result Halt Machine α'} (hw : w₀.Grows w)
    (h : Abreast w R x x') : Abreast w₀ R x x' := by
  cases h with
  | ok hw' ha hm => exact .ok (hw.trans hw') ha hm
  | error hw' hm => exact .error (hw.trans hw') hm

namespace Placed

variable {w : Placement} {R : Placement → α → α' → Prop} {S : Placement → β → β' → Prop}
  {p : Exec α} {p' : Exec α'} {setting : Setting} {s s' : List Nat}

theorem pure {a : α} {a' : α'} (h : R w a a') : Placed w R (Pure.pure a) (Pure.pure a') :=
  fun _ _ hm => .ok (.refl w) h hm

theorem throw (h : Halt) :
    Placed w R (MonadExcept.throw h : Exec α) (MonadExcept.throw h : Exec α') :=
  fun _ _ hm => .error (.refl w) hm

theorem fault (code : Code) (loc : Location) (args : List (String × Argument)) :
    Placed w R (Exec.fault code loc args) (Exec.fault code loc args) := throw _

theorem bind {k : α → Exec β} {k' : α' → Exec β'} (hp : Placed w R p p')
    (hk : ∀ w', w.Grows w' → ∀ a a', R w' a a' → Placed w' S (k a) (k' a')) :
    Placed w S (p >>= k) (p' >>= k') := by
  intro m m' hm
  have hfirst := hp m m' hm
  simp only [Bind.bind, EStateM.bind]
  generalize p m = x, p' m' = x' at hfirst ⊢
  cases hfirst with
  | ok hw ha hn => exact (hk _ hw _ _ ha _ _ hn).grow hw
  | error hw hn => exact .error hw hn

theorem map {f : α → β} {f' : α' → β'} (hp : Placed w R p p')
    (hf : ∀ w' a a', R w' a a' → S w' (f a) (f' a')) : Placed w S (f <$> p) (f' <$> p') := by
  rw [map_eq_pure_bind, map_eq_pure_bind]
  exact hp.bind fun w' _ a a' ha => pure (hf w' a a' ha)

theorem modify {g g' : Machine → Machine}
    (hg : ∀ m m' : Machine, m.Placed w m' → (g m).Placed w (g' m')) :
    Placed w Done (modify g : Exec Unit) (modify g' : Exec Unit) :=
  fun m m' hm => .ok (.refl w) trivial (hg m m' hm)

/-- What the second computation tells besides is of no account. -/
theorem noted (e : Event) (h : Placed w R p p') :
    Placed w R p (do Exec.note setting e; p') := by
  intro m m' hm
  simp only [Bind.bind, EStateM.bind, note_run]
  exact h m _
    (hm.tell rfl (m'.frames_tell setting e) (hm.output.trans (m'.output_tell setting e).symm))

theorem note (e : Event) :
    Placed w Done (Exec.note setting e) (Exec.note setting e) := by
  unfold Exec.note
  split
  · exact modify fun m m' hm => hm.tell rfl rfl hm.output
  · exact pure trivial

theorem nameOf (id : Int) : Placed w Same (Exec.nameOf setting id) (Exec.nameOf setting id) := by
  unfold Exec.nameOf
  split
  · exact pure rfl
  · exact throw _

theorem writeLine (text : String) :
    Placed w Done (Exec.writeLine setting text) (Exec.writeLine setting text) := by
  unfold Exec.writeLine
  split
  · exact throw _
  · exact modify fun m m' hm => hm.tell rfl rfl (by simp only [hm.output])

theorem lookup (hscope : w.Scope s s') (id : Int) (loc : Location) :
    Placed w (fun w x x' => w.At x.1 x'.1 ∧ x.2.Placed w x'.2) (Exec.lookup setting s id loc)
      (Exec.lookup setting s' id loc) := by
  intro m m' hm
  have hfind := hm.findIn hscope id
  rw [Folds.lookup_eq, Folds.lookup_eq]
  generalize Exec.findIn m.frames id s = x, Exec.findIn m'.frames id s' = x' at hfind ⊢
  cases hfind with
  | some hx => exact .ok (.refl w) hx hm
  | none =>
    refine (nameOf id).bind (fun w' _ name name' hname => ?_) m m' hm
    rw [hname]
    exact fault _ _ _

theorem declare (hheads : w.Heads s s') (id : Int) (type : Datatype) {v v' : Value}
    (hv : v.Placed w v') :
    Placed w Done (Exec.declare s id type v) (Exec.declare s' id type v') := by
  obtain ⟨i, i', hi, hi', hat⟩ := hheads
  obtain ⟨rest, rfl⟩ := List.head?_eq_some_iff.1 hi
  obtain ⟨rest', rfl⟩ := List.head?_eq_some_iff.1 hi'
  exact modify fun _ _ hm => hm.modify hat fun _ _ hf => hf.declare id ⟨hv.narrow type, rfl⟩

theorem assign {i i' : Nat} (hat : w.At i i') (id : Int) {v v' : Value} (hv : v.Placed w v') :
    Placed w Done (Exec.assign i id v) (Exec.assign i' id v') :=
  modify fun _ _ hm => hm.modify hat fun _ _ hf => hf.assign id hv

/-- What runs in a new frame. -/
theorem inFrame {body : List Nat → Exec α} {body' : List Nat → Exec α'}
    (hbody : Placed w.opened R (body (w.places.length :: s)) (body' (w.size :: s'))) :
    Placed w R (Exec.inFrame setting s body) (Exec.inFrame setting s' body') := by
  intro m m' hm
  have hopened : (m.opened setting).Placed w.opened (m'.opened setting) :=
    hm.opened.tell rfl rfl ((m.output_tell setting .push).trans
      (hm.output.trans (m'.output_tell setting .push).symm))
  have hends := (hbody _ _ hopened).grow (.opened w)
  rw [inFrame_run, inFrame_run, ← hm.length_eq, ← hm.size_eq]
  generalize body (w.places.length :: s) (m.opened setting) = x,
    body' (w.size :: s') (m'.opened setting) = x' at hends ⊢
  have hpop : ∀ {w' : Placement} {n n' : Machine}, n.Placed w' n' →
      (n.tell setting .pop).Placed w' (n'.tell setting .pop) := fun hn =>
    hn.tell (Machine.frames_tell ..) (Machine.frames_tell ..) ((Machine.output_tell ..).trans
      (hn.output.trans (Machine.output_tell ..).symm))
  cases hends with
  | ok hw ha hn => exact .ok hw ha (hpop hn)
  | error hw hn => exact .error hw (hpop hn)

/-- What runs in a frame that is spare. -/
theorem inSpare {body' : List Nat → Exec α'}
    (hbody : w.spared.Spare w.size → Placed w.spared R p (body' (w.size :: s'))) :
    Placed w R p (Exec.inFrame setting s' body') := by
  intro m m' hm
  have hspare : w.spared.Spare w.size :=
    ⟨Nat.lt_succ_self _, fun hmem => Nat.lt_irrefl _ (hm.lt _ hmem)⟩
  have hopened : m.Placed w.spared (m'.opened setting) :=
    hm.spared.tell rfl rfl (hm.output.trans (m'.output_tell setting .push).symm)
  have hends := (hbody hspare _ _ hopened).grow (.spared w)
  rw [inFrame_run, ← hm.size_eq]
  generalize p m = x, body' (w.size :: s') (m'.opened setting) = x' at hends ⊢
  have hpop : ∀ {w' : Placement} {n n' : Machine}, n.Placed w' n' →
      n.Placed w' (n'.tell setting .pop) := fun hn =>
    hn.tell rfl (Machine.frames_tell ..) (hn.output.trans (Machine.output_tell ..).symm)
  cases hends with
  | ok hw ha hn => exact .ok hw ha (hpop hn)
  | error hw hn => exact .error hw (hpop hn)

theorem whileLoop {test test' : Exec Bool} {body body' : Exec Flow}
    (htest : ∀ w', w.Grows w' → Placed w' Same test test')
    (hbody : ∀ w', w.Grows w' → Placed w' Flow.Placed body body') (rounds : Nat) :
    Placed w Flow.Placed (Exec.whileLoop test body rounds)
      (Exec.whileLoop test' body' rounds) := by
  induction rounds generalizing w with
  | zero => exact throw _
  | succ rounds ih =>
    refine (htest w (.refl w)).bind fun w₁ hw₁ holds holds' hholds => ?_
    rw [hholds]
    cases holds' with
    | false => exact pure .next
    | true =>
      refine (hbody w₁ hw₁).bind fun w₂ hw₂ flow flow' hflow => ?_
      have hw := hw₁.trans hw₂
      cases hflow with
      | next =>
        exact ih (fun w' hw' => htest w' (hw.trans hw')) fun w' hw' => hbody w' (hw.trans hw')
      | returned hv => exact pure (.returned hv)

theorem unary (op : UnaryOp) {v v' : Value} (hv : v.Placed w v') (loc : Location) :
    Placed w Value.Placed (Value.unary op v loc) (Value.unary op v' loc) := by
  simp only [Value.unary, hv.isTruthy_eq, hv.negate?_eq]
  split
  · exact pure (.plain trivial)
  · split
    · rename_i hvalue
      exact pure (.plain (Value.isPlain_negate? hvalue))
    · exact fault _ _ _

theorem binary (op : BinaryOp) {v v' u u' : Value} (hv : v.Placed w v') (hu : u.Placed w u')
    (loc : Location) :
    Placed w Value.Placed (Value.binary op v u loc) (Value.binary op v' u' loc) := by
  simp only [Value.binary, hv.word?_eq, hu.word?_eq, hv.isUnsigned_eq, hu.isUnsigned_eq]
  split
  · split
    · exact fault _ _ _
    · split
      · rename_i hx
        exact pure (.plain (Value.isPlain_of_operation hx))
      · exact throw _
      · exact throw _
  · exact fault _ _ _

theorem describe (e : Expr) {v v' : Value} (hv : v.Placed w v') :
    Placed w Same (e.describe setting v) (e.describe setting v') := by
  unfold Expr.describe
  split
  · exact nameOf _
  · exact pure hv.render_eq

end Placed

end Exec

/-- Functions that are called in the same place do the same with the same arguments. -/
def Invoke.Uniform (invoke : Invoke) : Prop :=
  ∀ (w : Placement) (f : Closure) (scope : List Nat) (args args' : List Value) (loc : Location),
    w.Scope f.scope scope → List.Forall₂ (Value.Placed w) args args' →
    Exec.Placed w Value.Placed (invoke f args loc) (invoke { f with scope } args' loc)

namespace Exec.Placed

variable {setting : Setting} {invoke : Invoke}

theorem renders {w : Placement} {vs vs' : List Value} (h : List.Forall₂ (Value.Placed w) vs vs') :
    vs.map Value.render = vs'.map Value.render := by
  induction h with
  | nil => rfl
  | cons hv _ ih => rw [List.map_cons, List.map_cons, hv.render_eq, ih]

mutual

/-- An expression binds no name, so that it has the same value wherever spare frames stand. -/
theorem eval (hinvoke : invoke.Uniform) {w : Placement} {s s' : List Nat} (hscope : w.Scope s s') :
    (e : Expr) → Placed w Value.Placed (e.eval setting invoke s) (e.eval setting invoke s')
  | .literal value _ => by
    simp only [Expr.eval]
    exact pure (.plain (Value.isPlain_ofLiteral value))
  | .var id loc => by
    simp only [Expr.eval]
    exact (lookup hscope id loc).bind fun _ _ _ _ hx => pure hx.2.value
  | .group inner _ => by
    simp only [Expr.eval]
    exact eval hinvoke hscope inner
  | .assign target value _ => by
    simp only [Expr.eval]
    cases target.unparen with
    | var id loc =>
      refine (lookup hscope id loc).bind fun w₁ hw₁ x x' hx => ?_
      refine (eval hinvoke (hw₁.scope hscope) value).bind fun w₂ hw₂ v v' hv => ?_
      have hnarrow : (v.narrow x.2.type).Placed w₂ (v'.narrow x'.2.type) := by
        rw [← hx.2.type]
        exact hv.narrow _
      exact (assign (hw₂.kept _ _ hx.1) id hnarrow).bind fun w₃ hw₃ _ _ _ =>
        pure (hnarrow.grow hw₃)
    | literal | group | assign | unary | binary | call => exact fault _ _ _
  | .unary op operand loc => by
    simp only [Expr.eval]
    exact (eval hinvoke hscope operand).bind fun _ _ _ _ hv => unary op hv loc
  | .binary op left right loc => by
    simp only [Expr.eval]
    refine (eval hinvoke hscope left).bind fun w₁ hw₁ a a' ha => ?_
    refine (eval hinvoke (hw₁.scope hscope) right).bind fun w₂ hw₂ b b' hb => ?_
    exact binary op (ha.grow hw₂) hb loc
  | .call callee args loc => by
    simp only [Expr.eval]
    refine (eval hinvoke hscope callee).bind fun w₁ hw₁ v v' hv => ?_
    cases hv with
    | print =>
      refine (pure trivial : Placed w₁ Done _ _).bind fun w₂ hw₂ _ _ _ => ?_
      have hall := evalAll hinvoke ((hw₁.trans hw₂).scope hscope) args
      refine hall.bind fun w₃ hw₃ values values' hvalues => ?_
      simp only [Callable.call, renders hvalues]
      exact (writeLine _).bind fun _ _ _ _ _ => pure (.plain trivial)
    | @closure f scope' hf =>
      have harity : Placed w₁ Done ((Callable.closure f).checkArity args.length loc)
          ((Callable.closure { f with scope := scope' }).checkArity args.length loc) := by
        simp only [Callable.checkArity, Callable.arity?, Callable.name]
        split
        · exact pure trivial
        · exact fault _ _ _
      refine harity.bind fun w₂ hw₂ _ _ _ => ?_
      have hall := evalAll hinvoke ((hw₁.trans hw₂).scope hscope) args
      refine hall.bind fun w₃ hw₃ values values' hvalues => ?_
      exact hinvoke w₃ f scope' values values' loc ((hw₂.trans hw₃).scope hf) hvalues
    | plain hplain =>
      have hdescribe : Placed w₁ Same (callee.describe setting v) (callee.describe setting v) :=
        describe callee (.plain hplain)
      cases v with
      | func f => exact hplain.elim
      | void | int | uint | bool =>
        refine hdescribe.bind fun _ _ name name' hname => ?_
        rw [hname]
        exact fault _ _ _

theorem evalAll (hinvoke : invoke.Uniform) {w : Placement} {s s' : List Nat}
    (hscope : w.Scope s s') : (es : List Expr) →
    Placed w (fun w => List.Forall₂ (Value.Placed w)) (Expr.evalAll setting invoke s es)
      (Expr.evalAll setting invoke s' es)
  | [] => by
    simp only [Expr.evalAll]
    exact pure .nil
  | e :: rest => by
    simp only [Expr.evalAll]
    refine (eval hinvoke hscope e).bind fun w₁ hw₁ v v' hv => ?_
    refine (evalAll hinvoke (hw₁.scope hscope) rest).bind fun w₂ hw₂ vs vs' hvs => ?_
    exact pure (.cons (hv.grow hw₂) hvs)

end

theorem evalOr (hinvoke : invoke.Uniform) {w : Placement} {s s' : List Nat}
    (hscope : w.Scope s s') {default : Value} (hdefault : default.IsPlain) (e : Option Expr) :
    Placed w Value.Placed (Expr.evalOr setting invoke s default e)
      (Expr.evalOr setting invoke s' default e) := by
  cases e with
  | none => exact pure (.plain hdefault)
  | some e => exact eval hinvoke hscope e

theorem test (hinvoke : invoke.Uniform) {w : Placement} {s s' : List Nat}
    (hscope : w.Scope s s') (cond : Expr) :
    Placed w Same (Value.isTruthy <$> cond.eval setting invoke s)
      (Value.isTruthy <$> cond.eval setting invoke s') :=
  (eval hinvoke hscope cond).map fun _ _ _ hv => hv.isTruthy_eq

end Exec.Placed

/-- The statement declares nothing outside its own blocks. -/
def Stmt.Contained : Stmt → Prop
  | .function _ _ _ _ _ _ | .var _ _ _ _ => False
  | .conditional _ body none _ => body.Contained
  | .conditional _ body (some other) _ => body.Contained ∧ other.Contained
  | .loop _ body _ => body.Contained
  | .block _ _ | .returning _ _ | .expr _ _ => True

namespace Exec.Placed

variable {setting : Setting} {invoke : Invoke}

mutual

/-- A statement runs alike if the innermost frame is none of the spare ones, or if it declares
nothing there. -/
theorem exec (hinvoke : invoke.Uniform) {w : Placement} {s s' : List Nat} (hscope : w.Scope s s') :
    (stmt : Stmt) → (hhead : stmt.Contained ∨ w.Heads s s') →
    Placed w Flow.Placed (stmt.exec setting invoke s) (stmt.exec setting invoke s')
  | .function id params result body _ _, hhead => by
    have hheads := hhead.resolve_left fun h => h
    simp only [Stmt.exec]
    refine (note _).bind fun w₁ hw₁ _ _ _ => (nameOf id).bind fun w₂ hw₂ name name' hname => ?_
    rw [hname]
    have hw := hw₁.trans hw₂
    exact (declare (hw.heads hheads) id .empty (.closure (hw.scope hscope))).bind
      fun _ _ _ _ _ => pure .next
  | .var id type init _, hhead => by
    have hheads := hhead.resolve_left fun h => h
    simp only [Stmt.exec]
    refine (note _).bind fun w₁ hw₁ _ _ _ => ?_
    refine (evalOr hinvoke (hw₁.scope hscope) (Value.isPlain_zero type) init).bind
      fun w₂ hw₂ v v' hv => ?_
    exact (declare ((hw₁.trans hw₂).heads hheads) id type hv).bind fun _ _ _ _ _ => pure .next
  | .block body _, _ => by
    simp only [Stmt.exec]
    refine (note _).bind fun w₁ hw₁ _ _ _ => inFrame ?_
    have hgrows := Placement.Grows.opened w₁
    exact execAll hinvoke (.placed Placement.at_opened ((hw₁.trans hgrows).scope hscope))
      Placement.heads_opened body
  | .conditional cond body none _, hhead => by
    simp only [Stmt.exec]
    refine (note _).bind fun w₁ hw₁ _ _ _ => ?_
    refine (eval hinvoke (hw₁.scope hscope) cond).bind fun w₂ hw₂ v v' hv => ?_
    have hw := hw₁.trans hw₂
    rw [hv.isTruthy_eq]
    split
    · exact exec hinvoke (hw.scope hscope) body (hhead.imp_right hw.heads)
    · exact pure .next
  | .conditional cond body (some other) _, hhead => by
    simp only [Stmt.exec]
    refine (note _).bind fun w₁ hw₁ _ _ _ => ?_
    refine (eval hinvoke (hw₁.scope hscope) cond).bind fun w₂ hw₂ v v' hv => ?_
    have hw := hw₁.trans hw₂
    rw [hv.isTruthy_eq]
    split
    · exact exec hinvoke (hw.scope hscope) body (hhead.imp And.left hw.heads)
    · exact exec hinvoke (hw.scope hscope) other (hhead.imp And.right hw.heads)
  | .loop cond body _, hhead => by
    simp only [Stmt.exec]
    refine (note _).bind fun w₁ hw₁ _ _ _ => ?_
    refine whileLoop (fun w' hw' => test hinvoke ((hw₁.trans hw').scope hscope) cond)
      (fun w' hw' => ?_) setting.budget
    have hw := hw₁.trans hw'
    exact exec hinvoke (hw.scope hscope) body (hhead.imp_right hw.heads)
  | .returning value _, _ => by
    simp only [Stmt.exec]
    refine (note _).bind fun w₁ hw₁ _ _ _ => ?_
    have hvoid : Value.void.IsPlain := trivial
    exact (evalOr hinvoke (hw₁.scope hscope) hvoid value).bind fun _ _ _ _ hv =>
      pure (.returned hv)
  | .expr e _, _ => by
    simp only [Stmt.exec]
    refine (note _).bind fun w₁ hw₁ _ _ _ => ?_
    exact (eval hinvoke (hw₁.scope hscope) e).bind fun _ _ _ _ _ => pure .next

theorem execAll (hinvoke : invoke.Uniform) {w : Placement} {s s' : List Nat}
    (hscope : w.Scope s s') (hheads : w.Heads s s') : (stmts : List Stmt) →
    Placed w Flow.Placed (Stmt.execAll setting invoke s stmts)
      (Stmt.execAll setting invoke s' stmts)
  | [] => by
    simp only [Stmt.execAll]
    exact pure .next
  | stmt :: rest => by
    simp only [Stmt.execAll]
    refine (exec hinvoke hscope stmt (.inr hheads)).bind fun w₁ hw₁ flow flow' hflow => ?_
    cases hflow with
    | next => exact execAll hinvoke (hw₁.scope hscope) (hw₁.heads hheads) rest
    | returned hv => exact pure (.returned hv)

end

end Exec.Placed

namespace Closure

theorem placed_bind {w : Placement} {s s' : List Nat} (hheads : w.Heads s s') (params : List Param)
    {args args' : List Value} (hargs : List.Forall₂ (Value.Placed w) args args') :
    Exec.Placed w Placed.Done (bind s params args) (bind s' params args') := by
  induction params generalizing w args args' with
  | nil => exact .pure trivial
  | cons p params ih =>
    cases hargs with
    | nil => exact .pure trivial
    | cons hv hrest =>
      simp only [bind]
      refine (Exec.Placed.declare hheads p.id p.type hv).bind fun w₁ hw₁ _ _ _ => ?_
      exact ih (hw₁.heads hheads) (hrest.imp fun _ _ h => h.grow hw₁)

/-- Calls do the same at every depth. -/
theorem uniform_invokeWithin (setting : Setting) (room : Nat) :
    (invokeWithin setting room).Uniform := by
  induction room with
  | zero => exact fun _ _ _ _ _ _ _ _ => .fault _ _ _
  | succ room ih =>
    intro w f scope args args' loc hscope hargs
    simp only [invokeWithin]
    refine (Exec.Placed.note _).bind fun w₁ hw₁ _ _ _ => ?_
    have hbody : Exec.Placed w₁ Flow.Placed
        (inFrame setting f.scope fun scope => do
          bind scope f.params args
          Exec.note setting (.exec .block)
          inFrame setting scope fun scope =>
            Stmt.execAll setting (invokeWithin setting room) scope f.body)
        (inFrame setting scope fun scope => do
          bind scope f.params args'
          Exec.note setting (.exec .block)
          inFrame setting scope fun scope =>
            Stmt.execAll setting (invokeWithin setting room) scope f.body) := by
      refine Exec.Placed.inFrame ?_
      have hw₂ := hw₁.trans (.opened w₁)
      refine (placed_bind Placement.heads_opened f.params
        (hargs.imp fun _ _ h => h.grow hw₂)).bind fun w₃ hw₃ _ _ _ => ?_
      refine (Exec.Placed.note _).bind fun w₄ hw₄ _ _ _ => Exec.Placed.inFrame ?_
      have hw₅ := (hw₃.trans hw₄).trans (.opened w₄)
      refine Exec.Placed.execAll ih ?_ Placement.heads_opened f.body
      exact .placed Placement.at_opened
        (.placed (hw₅.kept _ _ Placement.at_opened) ((hw₂.trans hw₅).scope hscope))
    exact hbody.bind fun _ _ _ _ hflow => .pure (placed_resultOf hflow)

end Closure

end Ember
