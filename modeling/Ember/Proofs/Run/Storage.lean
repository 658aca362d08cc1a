import Ember.Proofs.Run.Budget
import Ember.Proofs.Run.Course
import Ember.Proofs.Run.Frames

namespace Ember

theorem Datatype.narrow_narrow (type : Datatype) (v : Int64) :
    type.narrow (type.narrow v) = type.narrow v := by
  cases type with
  | boolean =>
    simp only [narrow]
    by_cases h : v = 0 <;> simp [h]
  | int8 | int16 | int32 => simp [narrow]
  | uint8 | uint16 | uint32 =>
    simp only [narrow, UInt64.toUInt64_toInt64, UInt8.toUInt8_toUInt64,
      UInt16.toUInt16_toUInt64, UInt32.toUInt32_toUInt64]
  | empty | void | int64 | uint64 | other => rfl

namespace Value

/-- How the kind, the word and the sign of a value go together: a boolean is the word 0 or 1,
and only integers are unsigned. -/
structure WellFormed (v : Value) : Prop where
  word_of_bool : v.kindName = "bool" → v.word? = some 0 ∨ v.word? = some 1
  signed_of_bool : v.kindName = "bool" → v.isUnsigned = false
  int_of_unsigned : v.isUnsigned → v.kindName = "int"

theorem wellFormed (v : Value) : v.WellFormed := by
  cases v with
  | bool b => cases b <;> exact ⟨by simp [word?], fun _ => rfl, nofun⟩
  | uint n => exact ⟨by simp [kindName], by simp [kindName], fun _ => rfl⟩
  | void | int | func => exact ⟨by simp [kindName], by simp [kindName], nofun⟩

/-- The value is one that a variable of the type can hold: a boolean, an unsigned word, or a
signed word within the width of the type. The other types hold anything. -/
def Normal (type : Datatype) (v : Value) : Prop :=
  match type with
  | .boolean => ∃ b, v = bool b
  | .uint64 => ∃ n, v = uint n
  | _ => type.isInteger → ∃ n, v = int n ∧ type.narrow n = n

theorem word?_eq_none_or_normal_narrow (type : Datatype) (v : Value) :
    (v.narrow type).word? = none ∨ (v.narrow type).Normal type := by
  unfold narrow
  split
  · exact .inl ‹_›
  · rename_i w hw
    right
    cases type with
    | boolean => exact ⟨_, rfl⟩
    | uint64 => exact ⟨_, rfl⟩
    | int8 | int16 | int32 | int64 | uint8 | uint16 | uint32 =>
      exact fun _ => ⟨_, rfl, Datatype.narrow_narrow _ _⟩
    | empty | void | other => exact nofun

theorem word?_eq_none_or_normal_zero (type : Datatype) :
    (zero type).word? = none ∨ (zero type).Normal type := by
  cases type with
  | boolean => exact .inr ⟨_, rfl⟩
  | uint64 => exact .inr ⟨_, rfl⟩
  | int8 | int16 | int32 | int64 | uint8 | uint16 | uint32 => exact .inr fun _ => ⟨0, rfl, rfl⟩
  | empty | void | other => exact .inl rfl

end Value

/-- A function with a result yields a value of its type, or one that is no word. -/
theorem Closure.word?_eq_none_or_normal_resultOf {f : Closure} (hresult : f.result ≠ .void)
    (flow : Flow) : (f.resultOf flow).word? = none ∨ (f.resultOf flow).Normal f.result := by
  cases flow with
  | next =>
    simp only [resultOf, if_neg hresult]
    exact Value.word?_eq_none_or_normal_zero f.result
  | returned v =>
    simp only [resultOf, if_neg hresult]
    exact Value.word?_eq_none_or_normal_narrow f.result v

theorem Closure.word?_eq_none_or_normal_invokeWithin {setting : Setting} {room : Nat}
    {f : Closure} {args : List Value} {loc : Location} {m m' : Machine} {v : Value}
    (hcall : invokeWithin setting room f args loc m = .ok v m') (hresult : f.result ≠ .void) :
    v.word? = none ∨ v.Normal f.result := by
  cases room with
  | zero => cases hcall
  | succ room =>
    obtain ⟨flow, rfl⟩ : ∃ flow, v = f.resultOf flow := by
      simp only [invokeWithin, Bind.bind, EStateM.bind] at hcall
      split at hcall
      · split at hcall
        · cases hcall
          exact ⟨_, rfl⟩
        · cases hcall
      · cases hcall
    exact f.word?_eq_none_or_normal_resultOf hresult flow

/-- The value of a variable, if it is a word, is one that its type can hold. -/
def Binding.Stored (b : Binding) : Prop :=
  b.value.WellFormed ∧ (b.value.word? = none ∨ b.value.Normal b.type)

/-- Every variable of every frame holds what its type can hold. -/
def Stored (frames : Array Frame) : Prop :=
  ∀ (frame : Nat) (id : Int) (b : Binding),
    (frames[frame]?.getD []).find? id = some b → b.Stored

theorem Binding.stored_narrow (type : Datatype) (v : Value) : Stored ⟨v.narrow type, type⟩ :=
  ⟨Value.wellFormed _, Value.word?_eq_none_or_normal_narrow type v⟩

namespace Stored

variable {m : Machine}

theorem push (h : Stored m.frames) : Stored (m.frames.push []) := by
  intro frame id b hfind
  have hsame := m.frameAt_push frame
  simp only [Machine.frameAt] at hsame
  rw [hsame] at hfind
  exact h frame id b hfind

theorem declare (h : Stored m.frames) (frame : Nat) (id : Int) {b : Binding} (hb : b.Stored) :
    Stored (m.frames.modify frame (·.declare id b)) := by
  intro frame' id' b' hfind
  have hframe := m.frameAt_modify frame (·.declare id b) frame'
  simp only [Machine.frameAt] at hframe
  rw [hframe] at hfind
  split at hfind
  · rw [Frame.find?_declare] at hfind
    split at hfind
    · cases hfind
      exact hb
    · exact h frame' id' b' hfind
  · exact h frame' id' b' hfind

/-- A value may be assigned if it fits the type that the variable has. -/
theorem assign (h : Stored m.frames) {frame : Nat} {id : Int} {type : Datatype}
    (htype : m.typeAt frame id = some type) (v : Value) :
    Stored (m.frames.modify frame (·.assign id (v.narrow type))) := by
  intro frame' id' b' hfind
  have hframe := m.frameAt_modify frame (·.assign id (v.narrow type)) frame'
  simp only [Machine.frameAt] at hframe
  rw [hframe] at hfind
  split at hfind
  · rename_i hsame
    obtain ⟨rfl, -⟩ := hsame
    rw [Frame.find?_assign] at hfind
    obtain ⟨b, hb, rfl⟩ := Option.map_eq_some_iff.1 hfind
    split
    · rename_i hid
      subst hid
      obtain rfl : b.type = type := by simpa [Machine.typeAt, Machine.frameAt, hb] using htype
      exact Binding.stored_narrow b.type v
    · exact h frame id' b hb
  · exact h frame' id' b' hfind

end Stored

/-- The moment shows no variable with a value that its type cannot hold. -/
def Moment.Stored : Moment → Prop
  | point m => Ember.Stored m.frames
  | applied _ _ _ => True

/-- From a machine whose variables hold what their types can hold, `p` comes by and leaves only
such machines, and `c` lists those it comes by. -/
def Secure {α : Type} (c : Course) (p : Exec α) : Prop :=
  ∀ m : Machine, Stored m.frames → (∀ x ∈ c m, x.Stored) ∧ Stored (p.final m).frames

open Course Exec

namespace Secure

variable {α β : Type} {c : Course} {p : Exec α}

theorem pure (a : α) : Secure nothing (Pure.pure a : Exec α) := fun _ hm => ⟨List.forall_mem_nil _, hm⟩

theorem throw (h : Halt) : Secure nothing (MonadExcept.throw h : Exec α) := fun _ hm => ⟨List.forall_mem_nil _, hm⟩

theorem fault (code : Code) (loc : Location) (args : List (String × Argument)) :
    Secure nothing (Exec.fault code loc args : Exec α) := throw _

theorem entering (h : Secure c p) : Secure (entering c) p := by
  intro m hm
  obtain ⟨hcourse, hfinal⟩ := h m hm
  exact ⟨List.forall_mem_cons.2 ⟨hm, hcourse⟩, hfinal⟩

/-- The rule for `andThen` with what is known of the machine between the two parts. -/
theorem bind_of_ok {k : α → Exec β} {c' : α → Course} (hp : Secure c p)
    (hk : ∀ a m m', p m = .ok a m' → Stored m'.frames →
      (∀ x ∈ c' a m', x.Stored) ∧ Stored ((k a).final m').frames) :
    Secure (c.andThen p c') (p >>= k) := by
  intro m hm
  obtain ⟨hcourse, hfinal⟩ := hp m hm
  unfold andThen
  cases hrun : p m with
  | ok a m' =>
    rw [final_of_ok hrun] at hfinal
    rw [final_bind_of_ok hrun]
    obtain ⟨hrest, hend⟩ := hk a m m' hrun hfinal
    exact ⟨List.forall_mem_append.2 ⟨hcourse, hrest⟩, hend⟩
  | error e m' =>
    rw [final_bind_of_error hrun]
    simp only [final, hrun] at hfinal
    exact ⟨by simpa using hcourse, hfinal⟩

theorem bind {k : α → Exec β} {c' : α → Course} (hp : Secure c p)
    (hk : ∀ a, Secure (c' a) (k a)) : Secure (c.andThen p c') (p >>= k) :=
  hp.bind_of_ok fun a _ m' _ => hk a m'

/-- What comes after the moments of `p` may itself come by none. -/
theorem bind_nothing {k : α → Exec β} (hp : Secure c p) (hk : ∀ a, Secure nothing (k a)) :
    Secure c (p >>= k) := by
  have hsame : c.andThen p (fun _ => nothing) = c := by
    funext m
    unfold andThen
    cases p m <;> exact List.append_nil _
  have hbind := hp.bind hk
  rwa [hsame] at hbind

theorem map (g : α → β) (hp : Secure c p) : Secure c (g <$> p) := by
  rw [map_eq_pure_bind]
  exact hp.bind_nothing fun a => pure _

theorem note (setting : Setting) (e : Event) : Secure nothing (Exec.note setting e) := by
  unfold Exec.note
  split
  · exact fun m hm => ⟨List.forall_mem_nil _, hm⟩
  · exact pure ()

theorem nameOf (setting : Setting) (id : Int) : Secure nothing (Exec.nameOf setting id) := by
  unfold Exec.nameOf
  split
  · exact pure _
  · exact throw _

theorem writeLine (setting : Setting) (text : String) :
    Secure nothing (Exec.writeLine setting text) := by
  unfold Exec.writeLine
  split
  · exact throw _
  · exact fun m hm => ⟨List.forall_mem_nil _, hm⟩

theorem lookup (setting : Setting) (scope : List Nat) (id : Int) (loc : Location) :
    Secure nothing (Exec.lookup setting scope id loc) := by
  intro m hm
  have hmiss : Secure nothing (do
      Exec.fault .undefinedVariable loc [("name", .text (← Exec.nameOf setting id))] :
        Exec (Nat × Binding)) := (nameOf setting id).bind_nothing fun _ => fault _ _ _
  unfold final
  rw [Folds.lookup_eq]
  cases Exec.findIn m.frames id scope with
  | some x => exact ⟨List.forall_mem_nil _, hm⟩
  | none => exact hmiss m hm

theorem declare (scope : List Nat) (id : Int) (type : Datatype) (value : Value) :
    Secure nothing (Exec.declare scope id type value) := by
  intro m hm
  refine ⟨List.forall_mem_nil _, ?_⟩
  cases scope with
  | nil => exact hm
  | cons frame rest => exact hm.declare frame id (Binding.stored_narrow type value)

theorem leaving (setting : Setting) (hp : Secure c p) : Secure c (Folds.leaving setting p) := by
  intro m hm
  obtain ⟨hcourse, hfinal⟩ := hp m hm
  refine ⟨hcourse, ?_⟩
  unfold final Folds.leaving
  unfold final at hfinal
  cases hrun : p m with
  | ok a m' =>
    simp only [hrun] at hfinal
    have hpop : Secure nothing (do Exec.note setting .pop; return a) :=
      (note setting .pop).bind_nothing fun _ => pure a
    exact (hpop m' hfinal).2
  | error e m' =>
    simp only [hrun] at hfinal
    have hpop : Secure nothing (do Exec.note setting .pop; MonadExcept.throw e : Exec α) :=
      (note setting .pop).bind_nothing fun _ => throw e
    exact (hpop m' hfinal).2

theorem inFrame (setting : Setting) (scope : List Nat) {courses : List Nat → Course}
    {body : List Nat → Exec α} (hbody : ∀ scope, Secure (courses scope) (body scope)) :
    Secure (inFrame setting scope courses) (Exec.inFrame setting scope body) := by
  rw [Folds.inFrame_eq]
  have henter : Secure nothing Folds.enter := fun m hm => ⟨List.forall_mem_nil _, hm.push⟩
  refine (note setting .push).bind fun _ => henter.bind fun frame => ?_
  exact leaving setting (hbody (frame :: scope))

theorem whileLoop {testCourse bodyCourse : Course} {test : Exec Bool} {body : Exec Flow}
    (htest : Secure testCourse test) (hbody : Secure bodyCourse body) (rounds : Nat) :
    Secure (whileLoop testCourse test bodyCourse body rounds)
      (Exec.whileLoop test body rounds) := by
  induction rounds with
  | zero => exact throw _
  | succ rounds ih =>
    refine htest.bind fun holds => ?_
    split
    · refine hbody.bind fun flow => ?_
      cases flow with
      | next => exact ih
      | returned v => exact pure _
    · exact pure _

end Secure

/-- Calls keep the variables within their types, and `calls` lists the moments of calls. -/
def Invoke.Secure (calls : CallCourse) (invoke : Invoke) : Prop :=
  ∀ f args loc, Ember.Secure (calls f args) (invoke f args loc)

section

variable {setting : Setting} {invoke : Invoke} {calls : CallCourse}

theorem Secure.unary (op : UnaryOp) (v : Value) (loc : Location) :
    Secure nothing (Value.unary op v loc) := by
  unfold Value.unary
  split
  · exact pure _
  · split
    · exact pure _
    · exact fault _ _ _

theorem Secure.binary (op : BinaryOp) (v w : Value) (loc : Location) :
    Secure (fun _ => [.applied op v w]) (Value.binary op v w loc) := by
  have hquiet : Secure nothing (Value.binary op v w loc) := by
    unfold Value.binary
    split
    · split
      · exact fault _ _ _
      · dsimp only
        split
        · exact pure _
        · exact throw _
        · exact throw _
    · exact fault _ _ _
  intro m hm
  exact ⟨List.forall_mem_singleton.2 trivial, (hquiet m hm).2⟩

theorem Secure.checkArity (f : Callable) (actual : Nat) (loc : Location) :
    Secure nothing (f.checkArity actual loc) := by
  unfold Callable.checkArity
  split
  · exact pure _
  · split
    · exact pure _
    · exact fault _ _ _

theorem Secure.call (hinvoke : Invoke.Secure calls invoke) (f : Callable) (args : List Value)
    (loc : Location) : Secure (f.course calls args) (f.call setting invoke args loc) := by
  cases f with
  | closure f => exact hinvoke f args loc
  | print => exact (writeLine setting _).bind_nothing fun _ => pure _

theorem Secure.describe (callee : Expr) (v : Value) :
    Secure nothing (callee.describe setting v) := by
  unfold Expr.describe
  split
  · exact nameOf setting _
  · exact pure _

/-- An assignment stores what fits the variable that was found: evaluating the new value does
not declare the variable anew. -/
theorem Secure.assign (hsteady : Invoke.Steady invoke) (scope : List Nat) (id : Int)
    (loc : Location) {value : Expr} {c : Course} (hvalue : Secure c (value.eval setting invoke scope)) :
    Secure (after (Exec.lookup setting scope id loc) fun _ => c) (do
      let (frame, b) ← Exec.lookup setting scope id loc
      let value := (← value.eval setting invoke scope).narrow b.type
      Exec.assign frame id value
      return value) := by
  refine (lookup setting scope id loc).bind_of_ok fun x m m' hlookup hm => ?_
  obtain ⟨rfl, hfind⟩ := lookup_eq_ok_iff.1 hlookup
  obtain ⟨-, hbinding⟩ := find?_of_findIn hfind
  obtain ⟨hcourse, hfinal⟩ := hvalue m' hm
  refine ⟨hcourse, ?_⟩
  have hevolves : m'.Evolves none ((value.eval setting invoke scope).final m') :=
    Exec.Steady.eval hsteady scope value m'
  cases hrun : value.eval setting invoke scope m' with
  | ok v m'' =>
    rw [final_of_ok hrun] at hfinal hevolves
    rw [final_bind_of_ok hrun]
    have htype : m''.typeAt x.1 id = some x.2.type := by
      rw [hevolves.typeAt_eq x.1 (Machine.lt_of_find? hbinding) nofun]
      simp [Machine.typeAt, hbinding]
    exact hfinal.assign htype v
  | error e m'' =>
    rw [final_bind_of_error hrun]
    simpa only [final, hrun] using hfinal

mutual

theorem Secure.eval (hsteady : Invoke.Steady invoke) (hinvoke : Invoke.Secure calls invoke)
    (scope : List Nat) : (e : Expr) →
    Secure (e.course setting invoke calls scope) (e.eval setting invoke scope)
  | .literal _ _ => (pure _).entering
  | .var id loc => ((lookup setting scope id loc).bind_nothing fun _ => pure _).entering
  | .group inner _ => (Secure.eval hsteady hinvoke scope inner).entering
  | .assign target value loc => by
    simp only [Expr.eval, Expr.course]
    refine entering ?_
    cases target.unparen with
    | var id loc => exact assign hsteady scope id loc (Secure.eval hsteady hinvoke scope value)
    | assign | binary | unary | call | group | literal => exact fault _ _ _
  | .unary op operand loc =>
    ((Secure.eval hsteady hinvoke scope operand).bind_nothing fun v => unary op v loc).entering
  | .binary op left right loc => by
    simp only [Expr.eval, Expr.course]
    refine entering ?_
    refine (Secure.eval hsteady hinvoke scope left).bind fun v => ?_
    exact (Secure.eval hsteady hinvoke scope right).bind fun w => binary op v w loc
  | .call callee args loc => by
    simp only [Expr.eval, Expr.course]
    refine entering ?_
    refine (Secure.eval hsteady hinvoke scope callee).bind fun v => ?_
    cases v with
    | func f =>
      refine (checkArity f args.length loc).bind fun _ => ?_
      exact (Secure.evalAll hsteady hinvoke scope args).bind fun vs => call hinvoke f vs loc
    | void | int | uint | bool => exact (describe callee _).bind_nothing fun _ => fault _ _ _

theorem Secure.evalAll (hsteady : Invoke.Steady invoke) (hinvoke : Invoke.Secure calls invoke)
    (scope : List Nat) : (es : List Expr) →
    Secure (Expr.courseAll setting invoke calls scope es) (Expr.evalAll setting invoke scope es)
  | [] => pure _
  | e :: rest => by
    simp only [Expr.evalAll, Expr.courseAll]
    refine (Secure.eval hsteady hinvoke scope e).bind fun _ => ?_
    exact (Secure.evalAll hsteady hinvoke scope rest).bind_nothing fun _ => pure _

end

theorem Secure.evalOr (hsteady : Invoke.Steady invoke) (hinvoke : Invoke.Secure calls invoke)
    (scope : List Nat) (default : Value) (e : Option Expr) :
    Secure (Expr.courseOr setting invoke calls scope e)
      (Expr.evalOr setting invoke scope default e) := by
  cases e with
  | none => exact pure _
  | some e => exact Secure.eval hsteady hinvoke scope e

mutual

theorem Secure.exec (hsteady : Invoke.Steady invoke) (hinvoke : Invoke.Secure calls invoke)
    (scope : List Nat) : (s : Stmt) →
    Secure (s.course setting invoke calls scope) (s.exec setting invoke scope)
  | .function id params result body _ loc => by
    simp only [Stmt.exec, Stmt.course]
    refine entering <| (note setting _).bind_nothing fun _ => ?_
    refine (nameOf setting id).bind_nothing fun name => ?_
    exact (declare scope id _ _).bind_nothing fun _ => pure _
  | .var id type init loc => by
    simp only [Stmt.exec, Stmt.course]
    refine entering <| (note setting _).bind fun _ => ?_
    refine (evalOr hsteady hinvoke scope _ init).bind_nothing fun v => ?_
    exact (declare scope id type v).bind_nothing fun _ => pure _
  | .block body loc => by
    simp only [Stmt.exec, Stmt.course]
    refine entering <| (note setting _).bind fun _ => ?_
    exact inFrame setting scope fun scope => Secure.execAll hsteady hinvoke scope body
  | .conditional cond body none loc => by
    simp only [Stmt.exec, Stmt.course]
    refine entering <| (note setting _).bind fun _ => ?_
    refine (Secure.eval hsteady hinvoke scope cond).bind fun v => ?_
    split
    · exact Secure.exec hsteady hinvoke scope body
    · exact pure _
  | .conditional cond body (some other) loc => by
    simp only [Stmt.exec, Stmt.course]
    refine entering <| (note setting _).bind fun _ => ?_
    refine (Secure.eval hsteady hinvoke scope cond).bind fun v => ?_
    split
    · exact Secure.exec hsteady hinvoke scope body
    · exact Secure.exec hsteady hinvoke scope other
  | .loop cond body loc => by
    simp only [Stmt.exec, Stmt.course]
    refine entering <| (note setting _).bind fun _ => ?_
    exact whileLoop ((Secure.eval hsteady hinvoke scope cond).map _)
      (Secure.exec hsteady hinvoke scope body) setting.budget
  | .returning value loc => by
    simp only [Stmt.exec, Stmt.course]
    refine entering <| (note setting _).bind fun _ => ?_
    exact (evalOr hsteady hinvoke scope _ value).bind_nothing fun v => pure _
  | .expr e loc => by
    simp only [Stmt.exec, Stmt.course]
    refine entering <| (note setting _).bind fun _ => ?_
    exact (Secure.eval hsteady hinvoke scope e).bind_nothing fun v => pure _

theorem Secure.execAll (hsteady : Invoke.Steady invoke) (hinvoke : Invoke.Secure calls invoke)
    (scope : List Nat) : (ss : List Stmt) →
    Secure (Stmt.courseAll setting invoke calls scope ss) (Stmt.execAll setting invoke scope ss)
  | [] => pure _
  | s :: rest => by
    simp only [Stmt.execAll, Stmt.courseAll]
    refine (Secure.exec hsteady hinvoke scope s).bind fun flow => ?_
    cases flow with
    | next => exact Secure.execAll hsteady hinvoke scope rest
    | returned v => exact pure _

end

end

namespace Closure

theorem secure_bind (scope : List Nat) (params : List Param) (args : List Value) :
    Secure nothing (bind scope params args) := by
  induction params generalizing args with
  | nil => exact .pure _
  | cons p params ih =>
    cases args with
    | nil => exact .pure _
    | cons v args =>
      exact (Secure.declare scope p.id p.type v).bind_nothing fun _ => ih args

theorem secure_invokeWithin (setting : Setting) (room : Nat) :
    Invoke.Secure (courseWithin setting room) (invokeWithin setting room) := by
  induction room with
  | zero => exact fun f args loc => .fault _ _ _
  | succ room ih =>
    intro f args loc
    simp only [invokeWithin, courseWithin]
    refine (Secure.note setting _).bind fun _ => Secure.bind_nothing ?_ fun flow => .pure _
    refine Secure.inFrame setting f.scope fun scope => ?_
    refine (secure_bind scope f.params args).bind fun _ => ?_
    refine (Secure.note setting _).bind fun _ => ?_
    refine Secure.inFrame setting scope fun scope => ?_
    exact .execAll (steady_invokeWithin setting room) ih scope f.body

end Closure

namespace Session

/-- A session as any number of runs leaves it, in whatever way they end. The table of names may
grow in between, when further programs are read. -/
inductive Reachable : Session → Prop where
  | start (table : SymbolTable) : Reachable (start table)
  | run {s : Session} (h : Reachable s) (table : SymbolTable) (options : RunOptions)
      (p : Program) : Reachable (run { s with table } options p).session
  | exec {s : Session} (h : Reachable s) (table : SymbolTable) (options : RunOptions)
      (p : Program) : Reachable (exec { s with table } options p).session

theorem stored_start (table : SymbolTable) : Stored (start table).frames := by
  intro frame id b hfind
  simp only [start] at hfind
  cases frame with
  | zero =>
    simp only [List.getElem?_toArray, List.getElem?_cons_zero, Option.getD_some,
      Frame.find?_cons, Frame.find?_nil] at hfind
    split at hfind
    · cases hfind
      exact ⟨Value.wellFormed _, .inl rfl⟩
    · cases hfind
  | succ frame => simp at hfind

theorem frames_perform (s : Session) {α : Type} (p : Exec α) :
    (s.perform p).session.frames = (p.final ⟨s.frames, "", []⟩).frames := by
  unfold perform final
  cases p ⟨s.frames, "", []⟩ <;> rfl

theorem secure_execAll (setting : Setting) (last : Value) (ss : List Stmt) :
    Secure (courseAll setting ss) (execAll setting last ss) := by
  have hsteady := Closure.steady_invokeWithin setting maxCalls
  have hinvoke := Closure.secure_invokeWithin setting maxCalls
  induction ss generalizing last with
  | nil => exact .pure _
  | cons s rest ih =>
    cases s with
    | expr e loc => exact (Secure.eval hsteady hinvoke scope e).bind fun v => ih v
    | function | var | block | conditional | loop | returning =>
      refine (Secure.exec hsteady hinvoke scope _).bind fun flow => ?_
      cases flow with
      | next => exact ih last
      | returned v => exact .pure _

theorem secure_run (s : Session) (options : RunOptions) (p : Program) :
    (∀ x ∈ s.runCourse options p, x.Stored) ∧ Stored (s.run options p).session.frames := by
  let setting := (start s.table).setting options
  have hbody : Secure (Stmt.courseAll setting (Closure.invoke setting) (Closure.course setting)
      scope p.body) (Stmt.execAll setting (Closure.invoke setting) scope p.body) :=
    .execAll (Closure.steady_invokeWithin setting maxCalls)
      (Closure.secure_invokeWithin setting maxCalls) scope p.body
  have hmain := hbody.bind_nothing (k := exit) fun flow => by
    cases flow with
    | next => exact .pure _
    | returned v => exact .pure _
  rw [run_eq, frames_perform]
  exact hmain _ (stored_start s.table)

theorem secure_exec (s : Session) (h : Stored s.frames) (options : RunOptions) (p : Program) :
    (∀ x ∈ s.execCourse options p, x.Stored) ∧ Stored (s.exec options p).session.frames := by
  rw [exec, frames_perform]
  exact secure_execAll _ _ _ _ h

theorem Reachable.stored {s : Session} (h : s.Reachable) : Stored s.frames := by
  induction h with
  | start table => exact stored_start table
  | run h table options p ih => exact (secure_run _ options p).2
  | exec h table options p ih => exact (secure_exec { table, frames := _ } ih options p).2

/-- Whatever programs a session runs, and however the runs end: every variable of every frame
holds, if it holds a word, one of its type. So it is between the runs and at every point of a
run, and every call of a function with a result yields such a value of its type. -/
theorem typed_storage {s : Session} (h : s.Reachable) :
    Stored s.frames ∧
    (∀ table options p m,
      (.point m ∈ runCourse { s with table } options p → Stored m.frames) ∧
      (.point m ∈ execCourse { s with table } options p → Stored m.frames)) ∧
    ∀ setting room f args loc m v m',
      Closure.invokeWithin setting room f args loc m = .ok v m' → f.result ≠ .void →
        v.word? = none ∨ v.Normal f.result := by
  refine ⟨h.stored, fun table options p m => ⟨fun hm => ?_, fun hm => ?_⟩, ?_⟩
  · exact (secure_run { s with table } options p).1 _ hm
  · exact (secure_exec { s with table } h.stored options p).1 _ hm
  · intro setting room f args loc m v m' hcall hresult
    exact Closure.word?_eq_none_or_normal_invokeWithin hcall hresult

/-- The variable `x` is narrowed when it is declared, by the call, and when it is assigned. The
last assignment stops the run and leaves it alone. -/
theorem typed_storage_fault :
    let s := start .empty
    let parsed := Program.parse "m" (Source.ofString
      "uint8 x = 300; bool b = 7; fn f(): int8 { return 200; } x = f(); x = 1 / 0;") s.table
    let ran := exec { s with table := parsed.table } ⟨9, false, none⟩ parsed.program
    parsed.report = [] ∧ ran.session.Reachable ∧ Stored ran.session.frames ∧
      ran.session.frames.toList.map (fun f => (f.find? 1).map fun b => (b.value.render, b.type)) =
        [some ("200", .uint8), none, none] ∧
      ran.result.toOption.isNone := by
  intro s parsed ran
  have hreachable : ran.session.Reachable :=
    .exec (.start .empty) parsed.table ⟨9, false, none⟩ parsed.program
  obtain ⟨hstored, -⟩ := typed_storage hreachable
  exact ⟨by decide +kernel, hreachable, hstored, by decide +kernel, by decide +kernel⟩

end Session

end Ember
