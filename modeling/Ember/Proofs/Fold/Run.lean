import Ember.Proofs.Fold.Machine
import Ember.Proofs.Run.Budget

namespace Ember

namespace Literal

/-- The word of a native constant is that of its value. -/
theorem IsNative.word? {l : Literal} (h : l.IsNative) :
    (Value.ofLiteral l).word? = some l.word := by
  cases l with
  | int | uint | bool => rfl
  | foreign => exact h.elim

theorem IsNative.isUnsigned_ofLiteral {l : Literal} (h : l.IsNative) :
    (Value.ofLiteral l).isUnsigned = l.isUnsigned := by
  cases l with
  | int | uint | bool => rfl
  | foreign => exact h.elim

theorem isNative_signed? {op : BinaryOp} {a b : Int64} {v : Literal}
    (hv : signed? op a b = some v) :
    v.IsNative ∧ ¬(op.isDivision ∧ b = 0) ∧ Value.signed? op a b = some (Value.ofLiteral v) := by
  unfold signed? at hv
  split at hv
  · cases hv
  · rename_i hzero
    cases op <;> cases hv <;> exact ⟨trivial, hzero, rfl⟩

theorem isNative_unsigned? {op : BinaryOp} {a b : UInt64} {v : Literal}
    (hv : unsigned? op a b = some v) :
    v.IsNative ∧ ¬(op.isDivision ∧ b = 0) ∧
      Value.unsigned? op a b = some (Value.ofLiteral v) := by
  unfold unsigned? at hv
  split at hv
  · cases hv
  · rename_i hzero
    cases op <;> cases hv <;> exact ⟨trivial, hzero, rfl⟩

/-- An operator between constants, whatever they are, has only native results. -/
theorem isNative_combine? {op : BinaryOp} {a b v : Literal} (hv : combine? op a b = some v) :
    v.IsNative := by
  unfold combine? at hv
  split at hv
  · exact (isNative_unsigned? hv).1
  · exact (isNative_signed? hv).1

theorem isNative_apply (op : UnaryOp) (l : Literal) : (l.apply op).IsNative := by
  cases op with
  | not => trivial
  | neg =>
    change (if l.isUnsigned then uint (-l.word.toUInt64) else int (-l.word)).IsNative
    split <;> trivial

/-- An operator on constants that has a result has it at run time too: only division by zero
is left to the run. -/
theorem binary_of_combine? {op : BinaryOp} {a b v : Literal} (ha : a.IsNative) (hb : b.IsNative)
    (hv : combine? op a b = some v) (loc : Location) :
    v.IsNative ∧
      Value.binary op (.ofLiteral a) (.ofLiteral b) loc = pure (Value.ofLiteral v) := by
  simp only [Value.binary, ha.word?, hb.word?, ha.isUnsigned_ofLiteral, hb.isUnsigned_ofLiteral]
  unfold combine? at hv
  cases hsign : a.isUnsigned || b.isUnsigned with
  | true =>
    simp only [hsign, if_true] at hv
    obtain ⟨hnative, hzero, hresult⟩ := isNative_unsigned? hv
    have hzero' : ¬(op.isDivision ∧ b.word = 0) := by
      rintro ⟨hdiv, hword⟩
      exact hzero ⟨hdiv, by rw [hword]; rfl⟩
    rw [if_neg hzero', if_pos rfl, hresult]
    exact ⟨hnative, rfl⟩
  | false =>
    simp only [hsign, Bool.false_eq_true, if_false] at hv
    obtain ⟨hnative, hzero, hresult⟩ := isNative_signed? hv
    rw [if_neg hzero, if_neg Bool.false_ne_true, hresult]
    exact ⟨hnative, rfl⟩

theorem unary_apply {l : Literal} (h : l.IsNative) (op : UnaryOp) (loc : Location) :
    (l.apply op).IsNative ∧
      Value.unary op (.ofLiteral l) loc = pure (Value.ofLiteral (l.apply op)) := by
  cases op with
  | not =>
    refine ⟨trivial, congrArg (fun b => pure (Value.bool b)) ?_⟩
    cases l with
    | int v => exact Bool.not_not _
    | uint v =>
      have hzero : (v.toInt64 == 0) = (v == 0) := by
        rw [Bool.eq_iff_iff, beq_iff_eq, beq_iff_eq]
        constructor
        · intro hv
          have hback := congrArg Int64.toUInt64 hv
          rwa [UInt64.toUInt64_toInt64] at hback
        · rintro rfl
          rfl
      exact (Bool.not_not _).trans hzero.symm
    | bool b => cases b <;> rfl
    | foreign => exact h.elim
  | neg =>
    cases l with
    | int v => exact ⟨trivial, rfl⟩
    | uint v =>
      refine ⟨trivial, ?_⟩
      have hword : v.toInt64.toUInt64 = v := UInt64.toUInt64_toInt64 v
      simp only [apply, isUnsigned, type, word, hword]
      rfl
    | bool b => cases b <;> exact ⟨trivial, rfl⟩
    | foreign => exact h.elim

end Literal

namespace Expr

variable (setting : Setting) (invoke : Invoke) (scope : List Nat)

theorem foldedGroup_spec {inner : Expr} (h : inner.Native) (loc : Location) :
    (foldedGroup inner loc).Native ∧
      (foldedGroup inner loc).eval setting invoke scope = inner.eval setting invoke scope := by
  unfold foldedGroup
  split
  · exact ⟨h, rfl⟩
  · exact ⟨h, rfl⟩

theorem foldedUnary_spec (op : UnaryOp) {operand : Expr} (h : operand.Native) (loc : Location) :
    (foldedUnary op operand loc).Native ∧
      (foldedUnary op operand loc).eval setting invoke scope =
        (unary op operand loc).eval setting invoke scope := by
  unfold foldedUnary
  split
  · rename_i value at'
    obtain ⟨hnative, happly⟩ := Literal.unary_apply h op loc
    refine ⟨hnative, ?_⟩
    simp only [eval, pure_bind, happly]
  · exact ⟨h, rfl⟩

theorem foldedBinary_spec (op : BinaryOp) {left right : Expr} (hleft : left.Native)
    (hright : right.Native) (loc : Location) :
    (foldedBinary op left right loc).Native ∧
      (foldedBinary op left right loc).eval setting invoke scope =
        (binary op left right loc).eval setting invoke scope := by
  unfold foldedBinary
  split
  · split
    · rename_i hv
      obtain ⟨hnative, hbinary⟩ := Literal.binary_of_combine? hleft hright hv loc
      refine ⟨hnative, ?_⟩
      simp only [eval, pure_bind, hbinary]
    · exact ⟨⟨hleft, hright⟩, rfl⟩
  · exact ⟨⟨hleft, hright⟩, rfl⟩

theorem length_foldAll (es : List Expr) : (foldAll es).length = es.length := by
  induction es with
  | nil => rfl
  | cons e rest ih => simp [foldAll, ih]

/-- The variable that an expression is, inside any number of parentheses. -/
def named? (e : Expr) : Option Int :=
  match e.unparen with
  | .var id _ => some id
  | _ => none

theorem describe_eq (e : Expr) (v : Value) :
    e.describe setting v =
      match e.named? with
      | some id => Exec.nameOf setting id
      | none => return v.render := by
  unfold describe named?
  cases e.unparen <;> rfl

/-- Folding neither makes nor drops a variable inside parentheses. -/
theorem named?_fold : (e : Expr) → e.fold.named? = e.named?
  | .literal _ _ | .var _ _ | .assign _ _ _ | .call _ _ _ => rfl
  | .group inner loc => by
    have ih := named?_fold inner
    have hgroup : (foldedGroup inner.fold loc).named? = inner.fold.named? := by
      unfold foldedGroup
      split
      · rename_i hlit
        rw [hlit]
        rfl
      · rfl
    exact hgroup.trans ih
  | .unary op operand loc => by
    change (foldedUnary op operand.fold loc).named? = none
    unfold foldedUnary
    split <;> rfl
  | .binary op left right loc => by
    change (foldedBinary op left.fold right.fold loc).named? = none
    unfold foldedBinary
    split
    · split <;> rfl
    · rfl

theorem describe_fold (e : Expr) (v : Value) :
    e.fold.describe setting v.fold = e.describe setting v := by
  rw [describe_eq, describe_eq, named?_fold, Value.render_fold]

end Expr

theorem Folds.describe (setting : Setting) (e : Expr) (v : Value) :
    FoldsSame (e.describe setting v) (e.fold.describe setting v.fold) := by
  rw [Expr.describe_fold, Expr.describe_eq]
  split
  · exact nameOf setting _
  · exact pure trivial

/-- Values without a function inside are the same in both runs. -/
theorem Folds.ofPlain {v : Value} (h : v.IsPlain) :
    Folds Value.fold Value.Native (Pure.pure v) (Pure.pure v) := by
  have hpure : Folds Value.fold Value.Native (Pure.pure v) (Pure.pure v.fold) := pure h.native
  rwa [h.fold_eq] at hpure

theorem Value.isPlain_unsigned? {op : BinaryOp} {a b : UInt64} {v : Value}
    (h : unsigned? op a b = some v) : v.IsPlain := by
  cases op <;> cases h <;> trivial

theorem Value.isPlain_signed? {op : BinaryOp} {a b : Int64} {v : Value}
    (h : signed? op a b = some v) : v.IsPlain := by
  cases op <;> cases h <;> trivial

/-- An operator gives a word, with a sign or without. -/
theorem Value.isPlain_of_operation {op : BinaryOp} {unsigned : Bool} {a b : Int64} {v : Value}
    (h : (if unsigned then unsigned? op a.toUInt64 b.toUInt64 else signed? op a b) = some v) :
    v.IsPlain := by
  split at h
  · exact isPlain_unsigned? h
  · exact isPlain_signed? h

theorem Value.isPlain_negate? {v w : Value} (h : v.negate? = some w) : w.IsPlain := by
  cases v <;> cases h <;> trivial

theorem Folds.unary (op : UnaryOp) (v : Value) (loc : Location) :
    Folds Value.fold Value.Native (Value.unary op v loc) (Value.unary op v.fold loc) := by
  cases op with
  | not =>
    simp only [Value.unary, Value.isTruthy_fold]
    exact ofPlain trivial
  | neg =>
    simp only [Value.unary, Value.negate?_fold]
    cases hneg : v.negate? with
    | none => exact fault _ _ _
    | some w => exact ofPlain (Value.isPlain_negate? hneg)

theorem Folds.binary (op : BinaryOp) (v w : Value) (loc : Location) :
    Folds Value.fold Value.Native (Value.binary op v w loc)
      (Value.binary op v.fold w.fold loc) := by
  simp only [Value.binary, Value.word?_fold, Value.isUnsigned_fold]
  split
  · split
    · exact fault _ _ _
    · split
      · rename_i hx
        exact ofPlain (Value.isPlain_of_operation hx)
      · exact throw _
      · exact throw _
  · exact fault _ _ _

theorem Folds.checkArity (f : Callable) (actual : Nat) (loc : Location) :
    FoldsSame (f.checkArity actual loc) (f.fold.checkArity actual loc) := by
  simp only [Callable.checkArity, Callable.arity?_fold, Callable.name_fold]
  split
  · exact pure trivial
  · split
    · exact pure trivial
    · exact fault _ _ _

/-- A way to call functions and its counterpart for folded functions. -/
def Invoke.Folds (invoke invoke' : Invoke) : Prop :=
  ∀ (f : Closure) (args : List Value) (loc : Location), f.Native → (∀ v ∈ args, v.Native) →
    Ember.Folds Value.fold Value.Native (invoke f args loc)
      (invoke' f.fold (args.map Value.fold) loc)

section

variable {setting : Setting} {invoke invoke' : Invoke}

theorem Folds.call (hinvoke : Invoke.Folds invoke invoke') (f : Callable)
    (hf : (Value.func f).Native) {args : List Value} (hargs : ∀ v ∈ args, v.Native)
    (loc : Location) :
    Folds Value.fold Value.Native (f.call setting invoke args loc)
      (f.fold.call setting invoke' (args.map Value.fold) loc) := by
  cases f with
  | closure f => exact hinvoke f args loc hf hargs
  | print =>
    have hrender : (args.map Value.fold).map Value.render = args.map Value.render := by
      rw [List.map_map]
      exact List.map_congr_left fun v _ => v.render_fold
    simp only [Callable.call, Callable.fold, hrender]
    exact (writeLine setting _).bind fun _ _ => ofPlain trivial

mutual

theorem Folds.eval (hinvoke : Invoke.Folds invoke invoke') (scope : List Nat) :
    (e : Expr) → e.Native →
    e.fold.Native ∧ Folds Value.fold Value.Native (e.eval setting invoke scope)
      (e.fold.eval setting invoke' scope)
  | .literal value loc, h => ⟨h, ofPlain (Value.isPlain_ofLiteral value)⟩
  | .var id loc, h => ⟨h, (lookup setting scope id loc).bind fun _ hx => pure hx⟩
  | .group inner loc, h => by
    obtain ⟨hnative, heval⟩ := Folds.eval hinvoke scope inner h
    obtain ⟨hgroup, hsame⟩ := Expr.foldedGroup_spec setting invoke' scope hnative loc
    refine ⟨hgroup, ?_⟩
    simp only [Expr.fold, Expr.eval, hsame]
    exact heval
  | .assign target value loc, h => by
    obtain ⟨hnative, heval⟩ := Folds.eval hinvoke scope value h.2
    refine ⟨⟨h.1, hnative⟩, ?_⟩
    simp only [Expr.fold, Expr.eval]
    split
    · refine (lookup setting scope _ _).bind fun x _ => heval.bind fun v hv => ?_
      have hnarrow := hv.narrow x.2.type
      have hfold : v.fold.narrow (found x).2.type = (v.narrow x.2.type).fold :=
        Value.narrow_fold _ _
      simp only [hfold]
      exact (assign x.1 _ hnarrow).bind fun _ _ => pure hnarrow
    · exact fault _ _ _
  | .unary op operand loc, h => by
    obtain ⟨hnative, heval⟩ := Folds.eval hinvoke scope operand h
    obtain ⟨hunary, hsame⟩ := Expr.foldedUnary_spec setting invoke' scope op hnative loc
    refine ⟨hunary, ?_⟩
    simp only [Expr.fold, hsame, Expr.eval]
    exact heval.bind fun v _ => unary op v loc
  | .binary op left right loc, h => by
    obtain ⟨hnative, heval⟩ := Folds.eval hinvoke scope left h.1
    obtain ⟨hnative', heval'⟩ := Folds.eval hinvoke scope right h.2
    obtain ⟨hbinary, hsame⟩ :=
      Expr.foldedBinary_spec setting invoke' scope op hnative hnative' loc
    refine ⟨hbinary, ?_⟩
    simp only [Expr.fold, hsame, Expr.eval]
    exact heval.bind fun v _ => heval'.bind fun w _ => binary op v w loc
  | .call callee args loc, h => by
    obtain ⟨hnative, heval⟩ := Folds.eval hinvoke scope callee h.1
    obtain ⟨hnative', heval'⟩ := Folds.evalAll hinvoke scope args h.2
    refine ⟨⟨hnative, hnative'⟩, ?_⟩
    simp only [Expr.fold, Expr.eval, Expr.length_foldAll]
    refine heval.bind fun v hv => ?_
    cases v with
    | func f =>
      refine (checkArity f args.length loc).bind fun _ _ => ?_
      exact heval'.bind fun values hvalues => call hinvoke f hv hvalues loc
    | void | int | uint | bool =>
      exact (describe setting callee _).bind fun _ _ => fault _ _ _

theorem Folds.evalAll (hinvoke : Invoke.Folds invoke invoke') (scope : List Nat) :
    (es : List Expr) → Expr.NativeAll es →
    Expr.NativeAll (Expr.foldAll es) ∧
      Folds (List.map Value.fold) (fun vs => ∀ v ∈ vs, v.Native)
        (Expr.evalAll setting invoke scope es)
        (Expr.evalAll setting invoke' scope (Expr.foldAll es))
  | [], _ => ⟨trivial, pure (by simp)⟩
  | e :: rest, h => by
    obtain ⟨hnative, heval⟩ := Folds.eval hinvoke scope e h.1
    obtain ⟨hnative', heval'⟩ := Folds.evalAll hinvoke scope rest h.2
    refine ⟨⟨hnative, hnative'⟩, ?_⟩
    simp only [Expr.foldAll, Expr.evalAll]
    refine heval.bind fun v hv => heval'.bind fun vs hvs => ?_
    exact pure (List.forall_mem_cons.2 ⟨hv, hvs⟩)

end

theorem Folds.evalOr (hinvoke : Invoke.Folds invoke invoke') (scope : List Nat) (default : Value)
    (hdefault : default.IsPlain) {e : Option Expr} (he : Expr.NativeOption e) :
    Folds Value.fold Value.Native (Expr.evalOr setting invoke scope default e)
      (Expr.evalOr setting invoke' scope default (e.map Expr.fold)) := by
  cases e with
  | none => exact ofPlain hdefault
  | some e => exact (Folds.eval hinvoke scope e (he e rfl)).2

mutual

theorem Folds.exec (hinvoke : Invoke.Folds invoke invoke') (scope : List Nat) :
    (s : Stmt) → s.Native →
    Folds Flow.fold Flow.Native (s.exec setting invoke scope) (s.fold.exec setting invoke' scope)
  | .function id params result body bodyLoc loc, h => by
    simp only [Stmt.fold, Stmt.exec]
    refine (note setting _).bind fun _ _ => (nameOf setting id).bind fun name _ => ?_
    have hvalue : (Value.func (.closure ⟨name, params, result, body, scope⟩)).Native := h
    exact (declare scope id .empty hvalue).bind fun _ _ => pure trivial
  | .var id type init loc, h => by
    simp only [Stmt.fold, Stmt.exec]
    refine (note setting _).bind fun _ _ => ?_
    refine (evalOr hinvoke scope _ (Value.isPlain_zero type) h).bind fun v hv => ?_
    exact (declare scope id type hv).bind fun _ _ => pure trivial
  | .block body loc, h => by
    simp only [Stmt.fold, Stmt.exec]
    refine (note setting _).bind fun _ _ => ?_
    exact inFrame setting scope fun scope => Folds.execAll hinvoke scope body h
  | .conditional cond body none loc, h => by
    simp only [Stmt.fold, Stmt.exec]
    refine (note setting _).bind fun _ _ => ?_
    refine (Folds.eval hinvoke scope cond h.1).2.bind fun v _ => ?_
    rw [Value.isTruthy_fold]
    split
    · exact Folds.exec hinvoke scope body h.2
    · exact pure trivial
  | .conditional cond body (some other) loc, h => by
    simp only [Stmt.fold, Stmt.exec]
    refine (note setting _).bind fun _ _ => ?_
    refine (Folds.eval hinvoke scope cond h.1).2.bind fun v _ => ?_
    rw [Value.isTruthy_fold]
    split
    · exact Folds.exec hinvoke scope body h.2.1
    · exact Folds.exec hinvoke scope other h.2.2
  | .loop cond body loc, h => by
    simp only [Stmt.fold, Stmt.exec]
    refine (note setting _).bind fun _ _ => ?_
    refine whileLoop ?_ (Folds.exec hinvoke scope body h.2) setting.budget
    exact (Folds.eval hinvoke scope cond h.1).2.map fun v _ => ⟨trivial, v.isTruthy_fold⟩
  | .returning value loc, h => by
    simp only [Stmt.fold, Stmt.exec]
    refine (note setting _).bind fun _ _ => ?_
    exact (evalOr hinvoke scope .void trivial h).bind fun v hv => pure hv
  | .expr e loc, h => by
    simp only [Stmt.fold, Stmt.exec]
    refine (note setting _).bind fun _ _ => ?_
    exact (Folds.eval hinvoke scope e h).2.bind fun v hv => pure trivial

theorem Folds.execAll (hinvoke : Invoke.Folds invoke invoke') (scope : List Nat) :
    (ss : List Stmt) → Stmt.NativeAll ss →
    Folds Flow.fold Flow.Native (Stmt.execAll setting invoke scope ss)
      (Stmt.execAll setting invoke' scope (Stmt.foldAll ss))
  | [], _ => pure trivial
  | s :: rest, h => by
    simp only [Stmt.foldAll, Stmt.execAll]
    refine (Folds.exec hinvoke scope s h.1).bind fun flow hflow => ?_
    cases flow with
    | next => exact Folds.execAll hinvoke scope rest h.2
    | returned v => exact pure hflow

end

end

namespace Closure

theorem folds_bind (scope : List Nat) (params : List Param) {args : List Value}
    (hargs : ∀ v ∈ args, v.Native) :
    FoldsSame (bind scope params args) (bind scope params (args.map Value.fold)) := by
  induction params generalizing args with
  | nil => exact Folds.pure trivial
  | cons p params ih =>
    cases args with
    | nil => exact Folds.pure trivial
    | cons v args =>
      obtain ⟨hv, hargs⟩ := List.forall_mem_cons.1 hargs
      exact (Folds.declare scope p.id p.type hv).bind fun _ _ => ih hargs

theorem resultOf_fold (f : Closure) (flow : Flow) :
    f.fold.resultOf flow.fold = (f.resultOf flow).fold := by
  change f.resultOf flow.fold = (f.resultOf flow).fold
  by_cases hvoid : f.result = .void
  · cases flow <;> simp only [resultOf, Flow.fold, hvoid, if_true] <;> rfl
  · cases flow with
    | next =>
      simp only [resultOf, Flow.fold, hvoid, if_false]
      exact (Value.isPlain_zero _).fold_eq.symm
    | returned v =>
      simp only [resultOf, Flow.fold, hvoid, if_false]
      exact Value.narrow_fold _ _

theorem native_resultOf (f : Closure) {flow : Flow} (h : flow.Native) :
    (f.resultOf flow).Native := by
  cases flow with
  | next =>
    simp only [resultOf]
    split
    · trivial
    · exact (Value.isPlain_zero _).native
  | returned v =>
    simp only [resultOf]
    split
    · trivial
    · exact Value.Native.narrow h _

/-- Folded functions are called as the functions are, at every depth of calls. -/
theorem folds_invokeWithin (setting : Setting) (room : Nat) :
    Invoke.Folds (invokeWithin setting room) (invokeWithin setting room) := by
  induction room with
  | zero => exact fun f args loc _ _ => Folds.fault _ _ _
  | succ room ih =>
    intro f args loc hf hargs
    have hbody : ∀ scope, Folds Flow.fold Flow.Native
        (do
          bind scope f.params args
          Exec.note setting (.exec .block)
          Exec.inFrame setting scope fun scope =>
            Stmt.execAll setting (invokeWithin setting room) scope f.body)
        (do
          bind scope f.params (args.map Value.fold)
          Exec.note setting (.exec .block)
          Exec.inFrame setting scope fun scope =>
            Stmt.execAll setting (invokeWithin setting room) scope (Stmt.foldAll f.body)) := by
      intro scope
      refine (folds_bind scope f.params hargs).bind fun _ _ => ?_
      refine (Folds.note setting _).bind fun _ _ => ?_
      exact Folds.inFrame setting scope fun scope => Folds.execAll ih scope f.body hf
    have hcall := Folds.inFrame setting f.scope hbody
    refine (Folds.note setting (.call f.name)).bind fun _ _ => hcall.bind fun flow hflow => ?_
    rw [resultOf_fold]
    exact Folds.pure (f.native_resultOf hflow)

end Closure

namespace Session

theorem native_start (table : SymbolTable) :
    Machine.Native ⟨(start table).frames, "", []⟩ := by
  intro f hf e he
  simp only [start, List.mem_toArray, List.mem_singleton] at hf
  subst hf
  rw [List.mem_singleton] at he
  subst he
  trivial

theorem fold_start (table : SymbolTable) :
    Machine.fold ⟨(start table).frames, "", []⟩ = ⟨(start table).frames, "", []⟩ := by
  simp [Machine.fold, start, Frame.fold, Binding.fold, Value.fold, Callable.fold]

/-- Computations that fold to each other look the same from outside. The frames they leave may
hold functions with different bodies. -/
theorem perform_fold (s : Session) {α : Type} {p q : Exec α} (h : FoldsSame p q)
    (hnative : Machine.Native ⟨s.frames, "", []⟩)
    (hfold : Machine.fold ⟨s.frames, "", []⟩ = ⟨s.frames, "", []⟩) :
    (s.perform q).result = (s.perform p).result ∧
      (s.perform q).output = (s.perform p).output ∧ (s.perform q).trace = (s.perform p).trace := by
  have hrun := h _ hnative
  rw [hfold] at hrun
  unfold perform
  cases hp : p ⟨s.frames, "", []⟩ with
  | ok a m =>
    simp only [hp] at hrun
    rw [hrun.2.2]
    exact ⟨rfl, rfl, rfl⟩
  | error e m =>
    simp only [hp] at hrun
    rw [hrun.2]
    exact ⟨rfl, rfl, rfl⟩

theorem run_fold (s : Session) (options : RunOptions) {p : Program}
    (hnative : Stmt.NativeAll p.body) :
    (s.run options p.fold).result = (s.run options p).result ∧
      (s.run options p.fold).output = (s.run options p).output ∧
        (s.run options p.fold).trace = (s.run options p).trace := by
  let setting := (start s.table).setting options
  have hexec : Folds Flow.fold Flow.Native
      (Stmt.execAll setting (Closure.invoke setting) scope p.body)
      (Stmt.execAll setting (Closure.invoke setting) scope p.fold.body) :=
    Folds.execAll (Closure.folds_invokeWithin setting maxCalls) scope p.body hnative
  have hmain : FoldsSame (Stmt.execAll setting (Closure.invoke setting) scope p.body >>= exit)
      (Stmt.execAll setting (Closure.invoke setting) scope p.fold.body >>= exit) := by
    refine hexec.bind fun flow hflow => ?_
    cases flow with
    | next => exact Folds.pure trivial
    | returned v =>
      simp only [Flow.fold, exit, Value.exitCode_fold]
      exact Folds.pure trivial
  rw [run_eq, run_eq]
  exact (start s.table).perform_fold hmain (native_start s.table) (fold_start s.table)

end Session

/-- Folding keeps what can be seen of a program that was read without a diagnostic. It comes to
an end if the program does, and then with the same result, the same output and the same trace:
however many rounds the loops of either had. -/
theorem Program.run_fold_parse {file : String} {source : Source} {table : SymbolTable}
    (hclean : (Program.parse file source table).report = []) (s : Session) (traced : Bool)
    (refusal : Option String) :
    (s.Terminates traced refusal (Program.parse file source table).program.fold ↔
      s.Terminates traced refusal (Program.parse file source table).program) ∧
    ∀ budget budget',
      let folded := s.run ⟨budget, traced, refusal⟩ (Program.parse file source table).program.fold
      let plain := s.run ⟨budget', traced, refusal⟩ (Program.parse file source table).program
      folded.isExhausted = false → plain.isExhausted = false →
        folded.result = plain.result ∧ folded.output = plain.output ∧
          folded.trace = plain.trace := by
  have hsame := fun budget =>
    s.run_fold ⟨budget, traced, refusal⟩ (Program.native_parse hclean)
  constructor
  · unfold Session.Terminates
    simp only [Ran.isExhausted, (hsame _).1]
  · intro budget budget' folded plain hfolded hplain
    have hmore := s.run_more_rounds hfolded (Nat.le_max_left budget budget')
    have hmore' := s.run_more_rounds hplain (Nat.le_max_right budget budget')
    simp only [folded, plain, ← hmore, ← hmore']
    exact hsame (max budget budget')

/-- A program that folds to another and stops at a division by zero. -/
theorem Program.run_fold_parse_loop :
    let parsed := Program.parse "m"
      (Source.ofString "int32 i = 2 * 3; while (i > 0) i -= 1 + 1; print(i, -(4)); 1 / (2 - 2);")
      .empty
    let folded := (Session.start parsed.table).run ⟨9, true, none⟩ parsed.program.fold
    let plain := (Session.start parsed.table).run ⟨7, true, none⟩ parsed.program
    parsed.report = [] ∧ folded.result = plain.result ∧ folded.output = plain.output ∧
      folded.trace = plain.trace ∧ plain.output = "0 -4\n" := by
  intro parsed folded plain
  have hclean : parsed.report = [] := by decide +kernel
  have hends : folded.isExhausted = false := by decide +kernel
  have hends' : plain.isExhausted = false := by decide +kernel
  obtain ⟨hresult, houtput, htrace⟩ :=
    (Program.run_fold_parse hclean (Session.start parsed.table) true none).2 9 7 hends hends'
  exact ⟨hclean, hresult, houtput, htrace, by decide +kernel⟩

end Ember
