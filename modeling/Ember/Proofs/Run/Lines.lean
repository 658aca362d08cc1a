import Ember.Proofs.Run.Leads

namespace Ember

/-- The text is made of whole lines, or is empty. -/
def IsLines (text : String) : Prop := text = "" ∨ ∃ before, text = before ++ "\n"

namespace IsLines

theorem empty : IsLines "" := .inl rfl

theorem line (text : String) : IsLines (text ++ "\n") := .inr ⟨text, rfl⟩

theorem append {text text' : String} (h : IsLines text) (h' : IsLines text') :
    IsLines (text ++ text') := by
  rcases h' with rfl | ⟨before, rfl⟩
  · rwa [String.append_empty]
  · exact .inr ⟨text ++ before, (String.append_assoc ..).symm⟩

end IsLines

namespace Exec

variable {α β : Type}

/-- Whatever the computation writes are whole lines, also if it stops early. -/
def WritesLines (p : Exec α) : Prop :=
  ∀ m : Machine, ∃ text, (p.final m).output = m.output ++ text ∧ IsLines text

namespace WritesLines

variable {p : Exec α}

theorem of_output_eq (h : ∀ m, (p.final m).output = m.output) : WritesLines p :=
  fun m => ⟨"", by rw [h, String.append_empty], .empty⟩

theorem pure (a : α) : WritesLines (Pure.pure a : Exec α) := of_output_eq fun _ => rfl

theorem throw (h : Halt) : WritesLines (MonadExcept.throw h : Exec α) := of_output_eq fun _ => rfl

theorem fault (code : Code) (loc : Location) (args : List (String × Argument)) :
    WritesLines (Exec.fault code loc args : Exec α) := throw _

theorem bind {k : α → Exec β} (hp : WritesLines p) (hk : ∀ a, WritesLines (k a)) :
    WritesLines (p >>= k) := by
  intro m
  obtain ⟨text, hfirst, hlines⟩ := hp m
  cases hrun : p m with
  | ok a m' =>
    rw [final_of_ok hrun] at hfirst
    obtain ⟨more, hrest, hlines'⟩ := hk a m'
    rw [final_bind_of_ok hrun]
    exact ⟨text ++ more, by rw [hrest, hfirst, String.append_assoc], hlines.append hlines'⟩
  | error e m' =>
    rw [final_bind_of_error hrun]
    exact ⟨text, by simpa only [final, hrun] using hfirst, hlines⟩

theorem map (g : α → β) (hp : WritesLines p) : WritesLines (g <$> p) := by
  rw [map_eq_pure_bind]
  exact hp.bind fun a => pure _

theorem modify {g : Machine → Machine} (h : ∀ m, (g m).output = m.output) :
    WritesLines (modify g : Exec Unit) := of_output_eq h

theorem note (setting : Setting) (e : Event) : WritesLines (Exec.note setting e) := by
  unfold Exec.note
  split
  · exact modify fun _ => rfl
  · exact pure ()

theorem nameOf (setting : Setting) (id : Int) : WritesLines (Exec.nameOf setting id) := by
  unfold Exec.nameOf
  split
  · exact pure _
  · exact throw _

theorem writeLine (setting : Setting) (text : String) :
    WritesLines (Exec.writeLine setting text) := by
  unfold Exec.writeLine
  split
  · exact throw _
  · exact fun m => ⟨text ++ "\n", String.append_assoc .., .line text⟩

theorem lookup (setting : Setting) (scope : List Nat) (id : Int) (loc : Location) :
    WritesLines (Exec.lookup setting scope id loc) := by
  intro m
  have hmiss : WritesLines (do
      Exec.fault .undefinedVariable loc [("name", .text (← Exec.nameOf setting id))] :
        Exec (Nat × Binding)) := (nameOf setting id).bind fun _ => fault _ _ _
  unfold final
  rw [Folds.lookup_eq]
  cases Exec.findIn m.frames id scope with
  | some x => exact pure x m
  | none => exact hmiss m

theorem declare (scope : List Nat) (id : Int) (type : Datatype) (value : Value) :
    WritesLines (Exec.declare scope id type value) :=
  modify fun _ => by cases scope <;> rfl

theorem assign (frame : Nat) (id : Int) (value : Value) :
    WritesLines (Exec.assign frame id value) := modify fun _ => rfl

theorem inFrame (setting : Setting) (scope : List Nat) {body : List Nat → Exec α}
    (hbody : ∀ frame, WritesLines (body (frame :: scope))) :
    WritesLines (Exec.inFrame setting scope body) := by
  intro m
  obtain ⟨text, hrun, hlines⟩ := hbody m.frames.size (m.opened setting)
  have hopened : (m.opened setting).output = m.output := Machine.output_tell m setting .push
  refine ⟨text, ?_, hlines⟩
  rw [← hopened, ← hrun]
  unfold final
  rw [inFrame_run]
  cases body (m.frames.size :: scope) (m.opened setting) <;>
    exact Machine.output_tell _ setting .pop

theorem whileLoop {test : Exec Bool} {body : Exec Flow} (htest : WritesLines test)
    (hbody : WritesLines body) (rounds : Nat) :
    WritesLines (Exec.whileLoop test body rounds) := by
  induction rounds with
  | zero => exact throw _
  | succ rounds ih =>
    refine htest.bind fun holds => ?_
    split
    · refine hbody.bind fun flow => ?_
      cases flow with
      | next => exact ih
      | returned v => exact pure _
    · exact pure _

theorem unary (op : UnaryOp) (v : Value) (loc : Location) :
    WritesLines (Value.unary op v loc) := by
  unfold Value.unary
  split
  · exact pure _
  · split
    · exact pure _
    · exact fault _ _ _

theorem binary (op : BinaryOp) (v w : Value) (loc : Location) :
    WritesLines (Value.binary op v w loc) := by
  unfold Value.binary
  split
  · split
    · exact fault _ _ _
    · dsimp only
      split
      · exact pure _
      · exact throw _
      · exact throw _
  · exact fault _ _ _

theorem checkArity (f : Callable) (actual : Nat) (loc : Location) :
    WritesLines (f.checkArity actual loc) := by
  unfold Callable.checkArity
  split
  · exact pure _
  · split
    · exact pure _
    · exact fault _ _ _

theorem describe (setting : Setting) (callee : Expr) (v : Value) :
    WritesLines (callee.describe setting v) := by
  unfold Expr.describe
  split
  · exact nameOf setting _
  · exact pure _

end WritesLines

end Exec

/-- Calls write whole lines. -/
def Invoke.WritesLines (invoke : Invoke) : Prop :=
  ∀ f args loc, Exec.WritesLines (invoke f args loc)

namespace Exec.WritesLines

variable {setting : Setting} {invoke : Invoke}

theorem call (hinvoke : invoke.WritesLines) (f : Callable) (args : List Value) (loc : Location) :
    WritesLines (f.call setting invoke args loc) := by
  cases f with
  | closure f => exact hinvoke f args loc
  | print => exact (writeLine setting _).bind fun _ => pure _

mutual

theorem eval (hinvoke : invoke.WritesLines) (scope : List Nat) :
    (e : Expr) → WritesLines (e.eval setting invoke scope)
  | .literal _ _ => pure _
  | .var id loc => (lookup setting scope id loc).bind fun _ => pure _
  | .group inner _ => eval hinvoke scope inner
  | .assign target value loc => by
    simp only [Expr.eval]
    split
    · refine (lookup setting scope _ _).bind fun x => (eval hinvoke scope value).bind fun v => ?_
      exact (assign x.1 _ _).bind fun _ => pure _
    · exact fault _ _ _
  | .unary op operand loc => (eval hinvoke scope operand).bind fun v => unary op v loc
  | .binary op left right loc =>
    (eval hinvoke scope left).bind fun v =>
      (eval hinvoke scope right).bind fun w => binary op v w loc
  | .call callee args loc => by
    simp only [Expr.eval]
    refine (eval hinvoke scope callee).bind fun v => ?_
    cases v with
    | func f =>
      refine (checkArity f args.length loc).bind fun _ => ?_
      exact (evalAll hinvoke scope args).bind fun vs => call hinvoke f vs loc
    | void | int | uint | bool => exact (describe setting callee _).bind fun _ => fault _ _ _

theorem evalAll (hinvoke : invoke.WritesLines) (scope : List Nat) :
    (es : List Expr) → WritesLines (Expr.evalAll setting invoke scope es)
  | [] => pure _
  | e :: rest =>
    (eval hinvoke scope e).bind fun _ => (evalAll hinvoke scope rest).bind fun _ => pure _

end

theorem evalOr (hinvoke : invoke.WritesLines) (scope : List Nat) (default : Value)
    (e : Option Expr) : WritesLines (Expr.evalOr setting invoke scope default e) := by
  cases e with
  | none => exact pure _
  | some e => exact eval hinvoke scope e

mutual

theorem exec (hinvoke : invoke.WritesLines) (scope : List Nat) :
    (s : Stmt) → WritesLines (s.exec setting invoke scope)
  | .function id params result body _ loc => by
    simp only [Stmt.exec]
    refine (note setting _).bind fun _ => (nameOf setting id).bind fun name => ?_
    exact (declare scope id _ _).bind fun _ => pure _
  | .var id type init loc => by
    simp only [Stmt.exec]
    refine (note setting _).bind fun _ => (evalOr hinvoke scope _ init).bind fun v => ?_
    exact (declare scope id type v).bind fun _ => pure _
  | .block body loc => by
    simp only [Stmt.exec]
    refine (note setting _).bind fun _ => inFrame setting scope fun frame => ?_
    exact execAll hinvoke (frame :: scope) body
  | .conditional cond body none loc => by
    simp only [Stmt.exec]
    refine (note setting _).bind fun _ => (eval hinvoke scope cond).bind fun v => ?_
    split
    · exact exec hinvoke scope body
    · exact pure _
  | .conditional cond body (some other) loc => by
    simp only [Stmt.exec]
    refine (note setting _).bind fun _ => (eval hinvoke scope cond).bind fun v => ?_
    split
    · exact exec hinvoke scope body
    · exact exec hinvoke scope other
  | .loop cond body loc => by
    simp only [Stmt.exec]
    refine (note setting _).bind fun _ => ?_
    exact whileLoop ((eval hinvoke scope cond).map _) (exec hinvoke scope body) setting.budget
  | .returning value loc => by
    simp only [Stmt.exec]
    exact (note setting _).bind fun _ => (evalOr hinvoke scope _ value).bind fun v => pure _
  | .expr e loc => by
    simp only [Stmt.exec]
    exact (note setting _).bind fun _ => (eval hinvoke scope e).bind fun v => pure _

theorem execAll (hinvoke : invoke.WritesLines) (scope : List Nat) :
    (ss : List Stmt) → WritesLines (Stmt.execAll setting invoke scope ss)
  | [] => pure _
  | s :: rest => by
    simp only [Stmt.execAll]
    refine (exec hinvoke scope s).bind fun flow => ?_
    cases flow with
    | next => exact execAll hinvoke scope rest
    | returned v => exact pure _

end

end Exec.WritesLines

namespace Closure

theorem bind_writesLines (scope : List Nat) (params : List Param) (args : List Value) :
    Exec.WritesLines (bind scope params args) := by
  induction params generalizing args with
  | nil => exact .pure _
  | cons p params ih =>
    cases args with
    | nil => exact .pure _
    | cons v args => exact (Exec.WritesLines.declare scope p.id p.type v).bind fun _ => ih args

/-- A function writes whole lines, however deep its calls nest. -/
theorem invokeWithin_writesLines (setting : Setting) (room : Nat) :
    (invokeWithin setting room).WritesLines := by
  induction room with
  | zero => exact fun f args loc => .fault _ _ _
  | succ room ih =>
    intro f args loc
    refine (Exec.WritesLines.note setting _).bind fun _ =>
      Exec.WritesLines.bind ?_ fun flow => .pure _
    refine Exec.WritesLines.inFrame setting f.scope fun frame => ?_
    refine (bind_writesLines _ f.params args).bind fun _ => ?_
    refine (Exec.WritesLines.note setting _).bind fun _ => ?_
    exact Exec.WritesLines.inFrame setting _ fun inner => .execAll ih _ f.body

end Closure

end Ember
