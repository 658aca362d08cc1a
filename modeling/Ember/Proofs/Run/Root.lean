import Ember.Proofs.Run.Storage
import Ember.Proofs.Sound.Run
import Ember.Proofs.Wat.Refusal

namespace Ember

open Course Exec

/-- A function that was declared in the program's own frame, and declares none. -/
structure Closure.Rooted (f : Closure) : Prop where
  scope : f.scope = Session.scope
  body : Stmt.FlatAll f.body

/-- A value that is a function of the program is a rooted one. -/
def Value.Rooted (v : Value) : Prop := ∀ f, v = .func (.closure f) → f.Rooted

def Flow.Rooted (flow : Flow) : Prop := ∀ v, flow = .returned v → v.Rooted

/-- Every function that a frame holds is rooted. -/
def Rooted (frames : Array Frame) : Prop := ∀ f ∈ frames, f.All Value.Rooted

/-- Every function that is seen at the moment is rooted. -/
def Moment.Rooted : Moment → Prop
  | point m => Ember.Rooted m.frames
  | applied _ left right => left.Rooted ∧ right.Rooted

namespace Value

/-- The function of the program that a value is. -/
def closure? : Value → Option Closure
  | func (.closure f) => some f
  | _ => none

theorem closure?_eq_some {v : Value} {f : Closure} :
    v.closure? = some f ↔ v = .func (.closure f) := by
  unfold closure?
  split <;> simp_all

theorem rooted_of_isPlain {v : Value} (h : v.IsPlain) : v.Rooted := by
  rintro f rfl
  exact h.elim

theorem Rooted.narrow {v : Value} (h : v.Rooted) (type : Datatype) : (v.narrow type).Rooted := by
  obtain ⟨hfunc, hplain⟩ := narrow_eq_or_isPlain type v
  cases v with
  | func f => rwa [hfunc f rfl]
  | void | int | uint | bool => exact rooted_of_isPlain (hplain trivial)

end Value

theorem Flow.rooted_next : Flow.next.Rooted := nofun

theorem Flow.rooted_returned {v : Value} (h : v.Rooted) : (Flow.returned v).Rooted := by
  rintro _ ⟨⟩
  exact h

theorem Closure.rooted_resultOf (f : Closure) {flow : Flow} (h : flow.Rooted) :
    (f.resultOf flow).Rooted := by
  cases flow with
  | next =>
    simp only [resultOf]
    split
    · exact Value.rooted_of_isPlain trivial
    · exact Value.rooted_of_isPlain (Value.isPlain_zero _)
  | returned v =>
    simp only [resultOf]
    split
    · exact Value.rooted_of_isPlain trivial
    · exact (h v rfl).narrow _

/-- From a machine whose functions are rooted, `p` comes by and leaves only such machines, and gives
a good result, and `c` lists the moments that it comes by. -/
def Roots {α : Type} (good : α → Prop) (c : Course) (p : Exec α) : Prop :=
  ∀ m : Machine, Rooted m.frames → (∀ x ∈ c m, x.Rooted) ∧
    match p m with
    | .ok a m' => Rooted m'.frames ∧ good a
    | .error _ m' => Rooted m'.frames

/-- A result that holds no value. -/
abbrev Anything {α : Type} (_ : α) : Prop := True

namespace Roots

variable {α β : Type} {good : α → Prop} {good' : β → Prop} {c : Course} {p : Exec α}

theorem pure {a : α} (ha : good a) : Roots good nothing (Pure.pure a) :=
  fun _ hm => ⟨List.forall_mem_nil _, hm, ha⟩

theorem throw (h : Halt) : Roots good nothing (MonadExcept.throw h) :=
  fun _ hm => ⟨List.forall_mem_nil _, hm⟩

theorem fault (code : Code) (loc : Location) (args : List (String × Argument)) :
    Roots good nothing (Exec.fault code loc args) := throw _

theorem entering (h : Roots good c p) : Roots good (entering c) p := by
  intro m hm
  obtain ⟨hcourse, hrun⟩ := h m hm
  exact ⟨List.forall_mem_cons.2 ⟨hm, hcourse⟩, hrun⟩

theorem bind {k : α → Exec β} {c' : α → Course} (hp : Roots good c p)
    (hk : ∀ a, good a → Roots good' (c' a) (k a)) :
    Roots good' (c.andThen p c') (p >>= k) := by
  intro m hm
  obtain ⟨hcourse, hrun⟩ := hp m hm
  unfold andThen
  cases hresult : p m with
  | ok a m' =>
    rw [hresult] at hrun
    obtain ⟨hrest, hend⟩ := hk a hrun.2 m' hrun.1
    rw [bind_of_ok hresult]
    exact ⟨List.forall_mem_append.2 ⟨hcourse, hrest⟩, hend⟩
  | error e m' =>
    rw [hresult] at hrun
    rw [bind_of_error hresult]
    exact ⟨by simpa using hcourse, hrun⟩

/-- What comes after the moments of `p` may itself come by none. -/
theorem bind_nothing {k : α → Exec β} (hp : Roots good c p)
    (hk : ∀ a, good a → Roots good' nothing (k a)) : Roots good' c (p >>= k) := by
  have hsame : c.andThen p (fun _ => nothing) = c := by
    funext m
    unfold andThen
    cases p m <;> exact List.append_nil _
  have hbind := hp.bind hk
  rwa [hsame] at hbind

theorem map {f : α → β} (hp : Roots good c p) (hf : ∀ a, good a → good' (f a)) :
    Roots good' c (f <$> p) := by
  rw [map_eq_pure_bind]
  exact hp.bind_nothing fun a ha => pure (hf a ha)

theorem note (setting : Setting) (e : Event) : Roots Anything nothing (Exec.note setting e) := by
  unfold Exec.note
  split
  · exact fun m hm => ⟨List.forall_mem_nil _, hm, trivial⟩
  · exact pure trivial

theorem nameOf (setting : Setting) (id : Int) :
    Roots Anything nothing (Exec.nameOf setting id) := by
  unfold Exec.nameOf
  split
  · exact pure trivial
  · exact throw _

theorem writeLine (setting : Setting) (text : String) :
    Roots Anything nothing (Exec.writeLine setting text) := by
  unfold Exec.writeLine
  split
  · exact throw _
  · exact fun m hm => ⟨List.forall_mem_nil _, hm, trivial⟩

theorem lookup (setting : Setting) (scope : List Nat) (id : Int) (loc : Location) :
    Roots (fun x => x.2.value.Rooted) nothing (Exec.lookup setting scope id loc) := by
  intro m hm
  have hmiss : Roots (fun x => x.2.value.Rooted) nothing (do
      Exec.fault .undefinedVariable loc [("name", .text (← Exec.nameOf setting id))] :
        Exec (Nat × Binding)) := (nameOf setting id).bind_nothing fun _ _ => fault _ _ _
  rw [Folds.lookup_eq]
  cases hfind : Exec.findIn m.frames id scope with
  | some x =>
    obtain ⟨-, hbinding⟩ := find?_of_findIn hfind
    have hframe := Machine.forall_getD hm (List.forall_mem_nil _) x.1
    exact ⟨List.forall_mem_nil _, hm, Frame.All.find? hframe hbinding⟩
  | none => exact hmiss m hm

theorem declare (scope : List Nat) (id : Int) (type : Datatype) {v : Value} (hv : v.Rooted) :
    Roots Anything nothing (Exec.declare scope id type v) := by
  intro m hm
  refine ⟨List.forall_mem_nil _, ?_, trivial⟩
  cases scope with
  | nil => exact hm
  | cons frame rest =>
    exact Machine.forall_modify hm frame fun f hf => Frame.All.declare hf id (hv.narrow type)

theorem assign (frame : Nat) (id : Int) {v : Value} (hv : v.Rooted) :
    Roots Anything nothing (Exec.assign frame id v) := fun _ hm =>
  ⟨List.forall_mem_nil _, Machine.forall_modify hm frame fun _ hf => Frame.All.assign hf id hv,
    trivial⟩

theorem leaving (setting : Setting) (hp : Roots good c p) :
    Roots good c (Folds.leaving setting p) := by
  intro m hm
  obtain ⟨hcourse, hrun⟩ := hp m hm
  refine ⟨hcourse, ?_⟩
  unfold Folds.leaving
  cases hresult : p m with
  | ok a m' =>
    rw [hresult] at hrun
    have hpop : Roots good nothing (do Exec.note setting .pop; return a) :=
      (note setting .pop).bind_nothing fun _ _ => pure hrun.2
    exact (hpop m' hrun.1).2
  | error e m' =>
    rw [hresult] at hrun
    have hpop : Roots good nothing (do Exec.note setting .pop; MonadExcept.throw e) :=
      (note setting .pop).bind_nothing fun _ _ => throw e
    exact (hpop m' hrun).2

theorem inFrame (setting : Setting) (scope : List Nat) {courses : List Nat → Course}
    {body : List Nat → Exec α} (hbody : ∀ scope, Roots good (courses scope) (body scope)) :
    Roots good (inFrame setting scope courses) (Exec.inFrame setting scope body) := by
  rw [Folds.inFrame_eq]
  have henter : Roots Anything nothing Folds.enter := by
    refine fun m hm => ⟨List.forall_mem_nil _, fun f hf => ?_, trivial⟩
    rcases Array.mem_push.1 hf with hf | rfl
    · exact hm f hf
    · exact List.forall_mem_nil _
  refine (note setting .push).bind fun _ _ => henter.bind fun frame _ => ?_
  exact leaving setting (hbody (frame :: scope))

theorem whileLoop {testCourse bodyCourse : Course} {test : Exec Bool} {body : Exec Flow}
    (htest : Roots Anything testCourse test) (hbody : Roots Flow.Rooted bodyCourse body)
    (rounds : Nat) :
    Roots Flow.Rooted (whileLoop testCourse test bodyCourse body rounds)
      (Exec.whileLoop test body rounds) := by
  induction rounds with
  | zero => exact throw _
  | succ rounds ih =>
    refine htest.bind fun holds _ => ?_
    split
    · refine hbody.bind fun flow hflow => ?_
      cases flow with
      | next => exact ih
      | returned v => exact pure hflow
    · exact pure Flow.rooted_next

theorem unary (op : UnaryOp) (v : Value) (loc : Location) :
    Roots Value.Rooted nothing (Value.unary op v loc) := by
  unfold Value.unary
  split
  · exact pure (Value.rooted_of_isPlain trivial)
  · split
    · rename_i hvalue
      exact pure (Value.rooted_of_isPlain (Value.isPlain_negate? hvalue))
    · exact fault _ _ _

theorem binary (op : BinaryOp) {v w : Value} (hv : v.Rooted) (hw : w.Rooted) (loc : Location) :
    Roots Value.Rooted (fun _ => [.applied op v w]) (Value.binary op v w loc) := by
  have hquiet : Roots Value.Rooted nothing (Value.binary op v w loc) := by
    unfold Value.binary
    split
    · split
      · exact fault _ _ _
      · dsimp only
        split
        · rename_i hx
          exact pure (Value.rooted_of_isPlain (Value.isPlain_of_operation hx))
        · exact throw _
        · exact throw _
    · exact fault _ _ _
  intro m hm
  exact ⟨List.forall_mem_singleton.2 ⟨hv, hw⟩, (hquiet m hm).2⟩

theorem checkArity (f : Callable) (actual : Nat) (loc : Location) :
    Roots Anything nothing (f.checkArity actual loc) := by
  unfold Callable.checkArity
  split
  · exact pure trivial
  · split
    · exact pure trivial
    · exact fault _ _ _

theorem describe {setting : Setting} (callee : Expr) (v : Value) :
    Roots Anything nothing (callee.describe setting v) := by
  unfold Expr.describe
  split
  · exact nameOf setting _
  · exact pure trivial

end Roots

/-- Calls of rooted functions leave rooted functions, and `calls` lists their moments. -/
def Invoke.Roots (calls : CallCourse) (invoke : Invoke) : Prop :=
  ∀ f args loc, f.Rooted → (∀ v ∈ args, v.Rooted) →
    Ember.Roots Value.Rooted (calls f args) (invoke f args loc)

section

variable {setting : Setting} {invoke : Invoke} {calls : CallCourse}

theorem Roots.call (hinvoke : Invoke.Roots calls invoke) {f : Callable}
    (hf : (Value.func f).Rooted) {args : List Value} (hargs : ∀ v ∈ args, v.Rooted)
    (loc : Location) :
    Roots Value.Rooted (f.course calls args) (f.call setting invoke args loc) := by
  cases f with
  | closure f => exact hinvoke f args loc (hf f rfl) hargs
  | print =>
    exact (writeLine setting _).bind_nothing fun _ _ => pure (Value.rooted_of_isPlain trivial)

mutual

/-- Expressions create no functions. -/
theorem Roots.eval (hinvoke : Invoke.Roots calls invoke) (scope : List Nat) : (e : Expr) →
    Roots Value.Rooted (e.course setting invoke calls scope) (e.eval setting invoke scope)
  | .literal value _ => (pure (Value.rooted_of_isPlain (Value.isPlain_ofLiteral value))).entering
  | .var id loc => ((lookup setting scope id loc).bind_nothing fun _ hx => pure hx).entering
  | .group inner _ => (Roots.eval hinvoke scope inner).entering
  | .assign target value loc => by
    simp only [Expr.eval, Expr.course]
    refine entering ?_
    cases target.unparen with
    | var id loc =>
      refine (lookup setting scope id loc).bind fun x hx => ?_
      refine (Roots.eval hinvoke scope value).bind_nothing fun v hv => ?_
      exact (assign x.1 id (hv.narrow x.2.type)).bind_nothing fun _ _ => pure (hv.narrow x.2.type)
    | assign | binary | unary | call | group | literal => exact fault _ _ _
  | .unary op operand loc =>
    ((Roots.eval hinvoke scope operand).bind_nothing fun v _ => unary op v loc).entering
  | .binary op left right loc => by
    simp only [Expr.eval, Expr.course]
    refine entering ?_
    refine (Roots.eval hinvoke scope left).bind fun v hv => ?_
    exact (Roots.eval hinvoke scope right).bind fun w hw => binary op hv hw loc
  | .call callee args loc => by
    simp only [Expr.eval, Expr.course]
    refine entering ?_
    refine (Roots.eval hinvoke scope callee).bind fun v hv => ?_
    cases v with
    | func f =>
      refine (checkArity f args.length loc).bind fun _ _ => ?_
      exact (Roots.evalAll hinvoke scope args).bind fun vs hvs => call hinvoke hv hvs loc
    | void | int | uint | bool => exact (describe callee _).bind_nothing fun _ _ => fault _ _ _

theorem Roots.evalAll (hinvoke : Invoke.Roots calls invoke) (scope : List Nat) :
    (es : List Expr) →
    Roots (fun vs => ∀ v ∈ vs, v.Rooted) (Expr.courseAll setting invoke calls scope es)
      (Expr.evalAll setting invoke scope es)
  | [] => pure (List.forall_mem_nil _)
  | e :: rest => by
    simp only [Expr.evalAll, Expr.courseAll]
    refine (Roots.eval hinvoke scope e).bind fun v hv => ?_
    exact (Roots.evalAll hinvoke scope rest).bind_nothing fun vs hvs =>
      pure (List.forall_mem_cons.2 ⟨hv, hvs⟩)

end

theorem Roots.evalOr (hinvoke : Invoke.Roots calls invoke) (scope : List Nat) {default : Value}
    (hdefault : default.IsPlain) (e : Option Expr) :
    Roots Value.Rooted (Expr.courseOr setting invoke calls scope e)
      (Expr.evalOr setting invoke scope default e) := by
  cases e with
  | none => exact pure (Value.rooted_of_isPlain hdefault)
  | some e => exact Roots.eval hinvoke scope e

mutual

/-- A statement that declares no function may run in any scope. -/
theorem Roots.exec (hinvoke : Invoke.Roots calls invoke) (scope : List Nat) : (s : Stmt) →
    s.Flat → Roots Flow.Rooted (s.course setting invoke calls scope) (s.exec setting invoke scope)
  | .function _ _ _ _ _ _ => fun h => h.elim
  | .var id type init loc => fun _ => by
    simp only [Stmt.exec, Stmt.course]
    refine entering <| (note setting _).bind fun _ _ => ?_
    refine (evalOr hinvoke scope (Value.isPlain_zero type) init).bind_nothing fun v hv => ?_
    exact (declare scope id type hv).bind_nothing fun _ _ => pure Flow.rooted_next
  | .block body loc => fun h => by
    simp only [Stmt.exec, Stmt.course]
    refine entering <| (note setting _).bind fun _ _ => ?_
    exact inFrame setting scope fun scope => Roots.execAll hinvoke scope body h
  | .conditional cond body none loc => fun h => by
    simp only [Stmt.exec, Stmt.course]
    refine entering <| (note setting _).bind fun _ _ => ?_
    refine (Roots.eval hinvoke scope cond).bind fun v _ => ?_
    split
    · exact Roots.exec hinvoke scope body h
    · exact pure Flow.rooted_next
  | .conditional cond body (some other) loc => fun h => by
    simp only [Stmt.exec, Stmt.course]
    refine entering <| (note setting _).bind fun _ _ => ?_
    refine (Roots.eval hinvoke scope cond).bind fun v _ => ?_
    split
    · exact Roots.exec hinvoke scope body h.1
    · exact Roots.exec hinvoke scope other h.2
  | .loop cond body loc => fun h => by
    simp only [Stmt.exec, Stmt.course]
    refine entering <| (note setting _).bind fun _ _ => ?_
    exact whileLoop ((Roots.eval hinvoke scope cond).map fun _ _ => trivial)
      (Roots.exec hinvoke scope body h) setting.budget
  | .returning value loc => fun _ => by
    simp only [Stmt.exec, Stmt.course]
    refine entering <| (note setting _).bind fun _ _ => ?_
    have hvoid : Value.void.IsPlain := trivial
    exact (evalOr hinvoke scope hvoid value).bind_nothing fun v hv =>
      pure (Flow.rooted_returned hv)
  | .expr e loc => fun _ => by
    simp only [Stmt.exec, Stmt.course]
    refine entering <| (note setting _).bind fun _ _ => ?_
    exact (Roots.eval hinvoke scope e).bind_nothing fun v _ => pure Flow.rooted_next

theorem Roots.execAll (hinvoke : Invoke.Roots calls invoke) (scope : List Nat) :
    (ss : List Stmt) → Stmt.FlatAll ss →
    Roots Flow.Rooted (Stmt.courseAll setting invoke calls scope ss)
      (Stmt.execAll setting invoke scope ss)
  | [] => fun _ => pure Flow.rooted_next
  | s :: rest => fun h => by
    simp only [Stmt.execAll, Stmt.courseAll]
    refine (Roots.exec hinvoke scope s h.1).bind fun flow hflow => ?_
    cases flow with
    | next => exact Roots.execAll hinvoke scope rest h.2
    | returned v => exact pure hflow

end

/-- In the program's own frame functions may be declared as well. -/
theorem Roots.execInside (hinvoke : Invoke.Roots calls invoke) {s : Stmt} (h : s.FlatInside) :
    Roots Flow.Rooted (s.course setting invoke calls Session.scope)
      (s.exec setting invoke Session.scope) := by
  cases s with
  | function id params result body bodyLoc loc =>
    simp only [Stmt.exec, Stmt.course]
    refine entering <| (note setting _).bind_nothing fun _ _ => ?_
    refine (nameOf setting id).bind_nothing fun name _ => ?_
    have hclosure : (Value.func (.closure ⟨name, params, result, body, Session.scope⟩)).Rooted := by
      rintro _ ⟨⟩
      exact ⟨rfl, h⟩
    exact (declare _ id _ hclosure).bind_nothing fun _ _ => pure Flow.rooted_next
  | var | block | conditional | loop | returning | expr => exact Roots.exec hinvoke _ _ h

end

namespace Closure

theorem roots_bind (scope : List Nat) (params : List Param) {args : List Value}
    (hargs : ∀ v ∈ args, v.Rooted) : Roots Anything nothing (bind scope params args) := by
  induction params generalizing args with
  | nil => exact .pure trivial
  | cons p params ih =>
    cases args with
    | nil => exact .pure trivial
    | cons v args =>
      obtain ⟨hv, hargs⟩ := List.forall_mem_cons.1 hargs
      exact (Roots.declare scope p.id p.type hv).bind_nothing fun _ _ => ih hargs

theorem roots_invokeWithin (setting : Setting) (room : Nat) :
    Invoke.Roots (courseWithin setting room) (invokeWithin setting room) := by
  induction room with
  | zero => exact fun f args loc _ _ => .fault _ _ _
  | succ room ih =>
    intro f args loc hf hargs
    simp only [invokeWithin, courseWithin]
    refine (Roots.note setting _).bind fun _ _ => ?_
    refine Roots.bind_nothing ?_ fun flow hflow => .pure (f.rooted_resultOf hflow)
    refine Roots.inFrame setting f.scope fun scope => ?_
    refine (roots_bind scope f.params hargs).bind fun _ _ => ?_
    refine (Roots.note setting _).bind fun _ _ => ?_
    exact Roots.inFrame setting scope fun scope => .execAll ih scope f.body hf.body

end Closure

namespace Session

variable {good : Program → Prop}

/-- A session as any number of runs of good programs leaves it, in whatever way they end. The table
of names may grow in between, when further programs are read. -/
inductive Grown (good : Program → Prop) : Session → Prop where
  | start (table : SymbolTable) : Grown good (start table)
  | run {s : Session} (h : Grown good s) (table : SymbolTable) (options : RunOptions) {p : Program}
    (hp : good p) : Grown good (run { s with table } options p).session
  | exec {s : Session} (h : Grown good s) (table : SymbolTable) (options : RunOptions) {p : Program}
    (hp : good p) : Grown good (exec { s with table } options p).session

theorem rooted_start (table : SymbolTable) : Rooted (start table).frames := by
  intro f hf
  obtain rfl : f = _ := Array.mem_singleton.1 hf
  exact List.forall_mem_singleton.2 (by rintro f ⟨⟩)

theorem rooted_perform {α : Type} {good : α → Prop} {c : Course} {p : Exec α}
    (h : Roots good c p) {s : Session} (hs : Rooted s.frames) :
    Rooted (s.perform p).session.frames ∧ ∀ a, (s.perform p).result = .ok a → good a := by
  have hrun := (h ⟨s.frames, "", []⟩ hs).2
  unfold perform
  cases hresult : p ⟨s.frames, "", []⟩ with
  | ok a m =>
    rw [hresult] at hrun
    refine ⟨hrun.1, ?_⟩
    rintro _ ⟨⟩
    exact hrun.2
  | error e m =>
    rw [hresult] at hrun
    exact ⟨hrun, nofun⟩

theorem roots_execAll (setting : Setting) {last : Value} (hlast : last.Rooted) {ss : List Stmt}
    (h : ∀ s ∈ ss, s.FlatInside) :
    Roots Value.Rooted (courseAll setting ss) (execAll setting last ss) := by
  have hinvoke := Closure.roots_invokeWithin setting maxCalls
  induction ss generalizing last with
  | nil => exact .pure hlast
  | cons s rest ih =>
    obtain ⟨hs, hrest⟩ := List.forall_mem_cons.1 h
    cases s with
    | expr e loc => exact (Roots.eval hinvoke scope e).bind fun v hv => ih hv hrest
    | function | var | block | conditional | loop | returning =>
      refine (Roots.execInside hinvoke hs).bind fun flow hflow => ?_
      cases flow with
      | next => exact ih hlast hrest
      | returned v => exact .pure (hflow v rfl)

theorem roots_program (setting : Setting) {ss : List Stmt} (h : ∀ s ∈ ss, s.FlatInside) :
    Roots Flow.Rooted
      (Stmt.courseAll setting (Closure.invoke setting) (Closure.course setting) scope ss)
      (Stmt.execAll setting (Closure.invoke setting) scope ss) := by
  have hinvoke := Closure.roots_invokeWithin setting maxCalls
  induction ss with
  | nil => exact .pure Flow.rooted_next
  | cons s rest ih =>
    obtain ⟨hs, hrest⟩ := List.forall_mem_cons.1 h
    simp only [Stmt.execAll, Stmt.courseAll]
    refine (Roots.execInside hinvoke hs).bind fun flow hflow => ?_
    cases flow with
    | next => exact ih hrest
    | returned v => exact .pure hflow

theorem rooted_run (s : Session) (options : RunOptions) {p : Program} (hp : p.Flat) :
    (∀ x ∈ s.runCourse options p, x.Rooted) ∧ Rooted (s.run options p).session.frames := by
  let setting := (start s.table).setting options
  have hexit : ∀ flow : Flow, flow.Rooted → Roots Anything nothing (exit flow) := by
    intro flow _
    cases flow with
    | next => exact .pure trivial
    | returned v => exact .pure trivial
  have hmain := (roots_program setting hp).bind_nothing hexit
  refine ⟨(hmain _ (rooted_start s.table)).1, ?_⟩
  rw [run_eq]
  exact (rooted_perform hmain (rooted_start s.table)).1

theorem rooted_exec {s : Session} (hs : Rooted s.frames) (options : RunOptions) {p : Program}
    (hp : p.Flat) :
    (∀ x ∈ s.execCourse options p, x.Rooted) ∧ Rooted (s.exec options p).session.frames ∧
      ∀ v, (s.exec options p).result = .ok v → v.Rooted := by
  have hvoid : Value.void.Rooted := Value.rooted_of_isPlain trivial
  have hmain := roots_execAll (s.setting options) hvoid hp
  exact ⟨(hmain _ hs).1, rooted_perform hmain hs⟩

theorem Grown.rooted {s : Session} (h : s.Grown good) (hgood : ∀ p, good p → p.Flat) :
    Rooted s.frames := by
  induction h with
  | start table => exact rooted_start table
  | run h table options hp ih => exact (rooted_run _ options (hgood _ hp)).2
  | exec h table options hp ih =>
    exact (rooted_exec (s := { table, frames := _ }) ih options (hgood _ hp)).2.1

end Session

namespace Program

/-- A program as it is read from a text, or with the operators on its constants replaced. -/
def Read (p : Program) : Prop :=
  ∃ file source table, p = (parse file source table).program ∨
    p = (parse file source table).program.fold

theorem Read.flat {p : Program} (h : p.Read) : p.Flat := by
  obtain ⟨file, source, table, rfl | rfl⟩ := h
  · exact (shaped_parse_program file source table).flat
  · exact (shaped_parse_program file source table).flat.fold

/-- What is read from a text, with or without errors, has the shape of a text. So the lowering never
meets a function inside of another or a node that it has no case for, and in sessions that run such
programs every function was declared in the program's own frame. -/
theorem shape_parse (file : String) (source : Source) (table : SymbolTable) :
    let p := (parse file source table).program
    p.Shaped ∧
    (∀ (table' : SymbolTable) (d : Diagnostic), p.toWat table' = .error (.fault d) →
      d.code = .unsupportedConstruct →
        ∃ what, d.args = [("value", .text what)] ∧ (∀ name, what ≠ "nested function " ++ name) ∧
          ∀ kind : NodeKind, what ≠ kind.name) ∧
    ∀ (s : Session) (table' : SymbolTable) (options : RunOptions), s.Grown Read →
      Rooted s.frames ∧
      (∀ x ∈ Session.runCourse { s with table := table' } options p, x.Rooted) ∧
      (∀ x ∈ Session.execCourse { s with table := table' } options p, x.Rooted) ∧
      ∀ v, (Session.exec { s with table := table' } options p).result = .ok v → v.Rooted := by
  intro p
  have hshaped : p.Shaped := shaped_parse_program file source table
  refine ⟨hshaped, ?_, ?_⟩
  · intro table' d hwat hcode
    obtain ⟨what, hargs, hwhat⟩ := hshaped.flat.explained_toWat table' d hwat hcode
    exact ⟨what, hargs, hwhat.ne⟩
  · intro s table' options hs
    have hrooted := hs.rooted fun _ => Read.flat
    obtain ⟨hcourse, -, hresult⟩ :=
      Session.rooted_exec (s := { s with table := table' }) hrooted options hshaped.flat
    exact ⟨hrooted, (Session.rooted_run _ options hshaped.flat).1, hcourse, hresult⟩

/-- A function is a value of the program, which has no lowering for this. -/
theorem shape_parse_function :
    let s := Session.start .empty
    let parsed := parse "m" (Source.ofString "fn f(): int8 { return 1; } f;") s.table
    let ran := Session.exec { s with table := parsed.table } ⟨9, false, none⟩ parsed.program
    parsed.report = [] ∧ parsed.program.Shaped ∧
    (∃ d what, parsed.program.toWat parsed.table = .error (.fault d) ∧
      d.args = [("value", .text what)] ∧ ∀ name, what ≠ "nested function " ++ name) ∧
    Rooted ran.session.frames ∧
    ∃ f, ran.result = .ok (.func (.closure f)) ∧ f.scope = [0] := by
  intro s parsed ran
  obtain ⟨hshaped, hwat, hrun⟩ :=
    shape_parse "m" (Source.ofString "fn f(): int8 { return 1; } f;") s.table
  have hread : parsed.program.Read := ⟨_, _, _, .inl rfl⟩
  have hstart : s.Grown Read := .start .empty
  refine ⟨by decide +kernel, hshaped, ?_, ?_, ?_⟩
  · have hrefused : (parsed.program.refusal? parsed.table).map (·.code) =
        some .unsupportedConstruct := by decide +kernel
    obtain ⟨d, hd, hcode⟩ := Option.map_eq_some_iff.1 hrefused
    have hfault := Program.refusal?_eq_some.1 hd
    obtain ⟨what, hargs, hnested, -⟩ := hwat _ d hfault hcode
    exact ⟨d, what, hfault, hargs, hnested⟩
  · exact (hrun ran.session .empty ⟨9, false, none⟩ (hstart.exec parsed.table _ hread)).1
  · have hfunction : (ran.result.toOption.bind Value.closure?).isSome = true := by decide +kernel
    obtain ⟨f, hf⟩ := Option.isSome_iff_exists.1 hfunction
    obtain ⟨v, hv, hclosure⟩ := Option.bind_eq_some_iff.1 hf
    obtain rfl := Value.closure?_eq_some.1 hclosure
    have hresult : ran.result = .ok (.func (.closure f)) := by
      generalize ran.result = result at hv
      cases result with
      | ok v => exact congrArg Except.ok (Option.some.inj hv)
      | error e => cases hv
    have hrooted := (hrun s parsed.table ⟨9, false, none⟩ hstart).2.2.2 _ hresult
    exact ⟨f, hresult, (hrooted f rfl).scope⟩

end Program

end Ember
