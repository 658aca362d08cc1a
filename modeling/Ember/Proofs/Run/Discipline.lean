import Ember.Proofs.Run.Leads
import Ember.Proofs.Run.Stack
import Ember.Parser.Program

namespace Ember

open Exec

/-- The numbers of calls that may be active. -/
def InBounds (heights : List Nat) : Prop := ∀ n ∈ heights, 1 ≤ n ∧ n ≤ maxCalls + 1

theorem InBounds.append {heights more : List Nat} (h : InBounds heights) (hmore : InBounds more) :
    InBounds (more ++ heights) :=
  List.forall_mem_append.2 ⟨hmore, h⟩

theorem inBounds_nil : InBounds [] := nofun

theorem inBounds_one : InBounds [1] := by simp [InBounds]

namespace StackExec

variable {α β γ δ : Type}

/-- What a computation gives, with stacks beside the machine: those that its result leaves, or those
that were there if it stops early. -/
def beside (view : α → β) (left : α → List (Option Value)) (env : List Nat)
    (calls : List (Option Value)) (heights : List Nat) :
    EStateM.Result Halt Machine α → EStateM.Result Halt StackMachine β
  | .ok a m => .ok (view a) ⟨m, env, left a, heights⟩
  | .error h m => .error h ⟨m, env, calls, heights⟩

/-- The computation `x` does with stacks what `p` does without: it gives the same and leaves the same
machine. The frames in scope are the same again, and the calls are those that the result of `p`
says. -/
def Mirrors (view : α → β) (left : α → List (Option Value)) (env : List Nat)
    (calls : List (Option Value)) (x : StackExec β) (p : Exec α) : Prop :=
  ∀ m heights, m.Leads (p.final m) ∧ ∃ more, InBounds more ∧
    x ⟨m, env, calls, heights⟩ = beside view left env calls (more ++ heights) (p m)

/-- The calls that are active are the same again, too. -/
abbrev Yields (env : List Nat) (calls : List (Option Value)) (x : StackExec α) (p : Exec α) : Prop :=
  Mirrors id (fun _ => calls) env calls x p

/-- The mark of a call after a statement. -/
def mark : Flow → Option Value
  | .next => none
  | .returned value => some value

/-- The call that is active is marked if the statement returns. -/
abbrev Marks (env : List Nat) (below : List (Option Value)) (x : StackExec Unit) (p : Exec Flow) :
    Prop :=
  Mirrors (fun _ => ()) (fun flow => mark flow :: below) env (none :: below) x p

section

variable {view : α → β} {left : α → List (Option Value)} {env : List Nat}
  {calls : List (Option Value)} {p : Exec α}

theorem Yields.lift (hp : p.Leads) : Yields env calls (lift p) p := by
  refine fun m heights => ⟨hp m, [], inBounds_nil, ?_⟩
  simp only [StackExec.lift]
  cases p m <;> rfl

theorem Yields.inScope {p : List Nat → Exec α} (hp : (p env).Leads) :
    Yields env calls (inScope p) (p env) :=
  Yields.lift hp

theorem Yields.pure (a : α) : Yields env calls (Pure.pure a) (Pure.pure a) :=
  fun m _ => ⟨.refl m, [], inBounds_nil, rfl⟩

theorem Mirrors.bind {x : StackExec α} {k : α → StackExec γ} {k' : α → Exec δ} {view' : δ → γ}
    {left' : δ → List (Option Value)} (hx : Yields env calls x p)
    (hk : ∀ a, Mirrors view' left' env calls (k a) (k' a)) :
    Mirrors view' left' env calls (x >>= k) (p >>= k') := by
  intro m heights
  obtain ⟨hleads, more, hmore, hrun⟩ := hx m heights
  cases hp : p m with
  | ok a m' =>
    obtain ⟨hleads', more', hmore', hrun'⟩ := hk a m' (more ++ heights)
    rw [final_of_ok hp] at hleads
    rw [final_bind_of_ok hp]
    refine ⟨hleads.trans hleads', more' ++ more, hmore.append hmore', ?_⟩
    simp only [hp, beside, id] at hrun
    simp only [Bind.bind, EStateM.bind, hp, hrun, hrun', List.append_assoc]
  | error h m' =>
    rw [final_bind_of_error hp]
    simp only [final, hp] at hleads
    refine ⟨hleads, more, hmore, ?_⟩
    simp only [hp, beside] at hrun
    simp only [Bind.bind, EStateM.bind, hp, hrun, beside]

/-- What is made of the result. -/
theorem Mirrors.result {x : StackExec β}
    (hx : Mirrors view (fun _ => calls) env calls x p) (g : β → γ) :
    Yields env calls (do return g (← x)) (do return g (view (← p))) := by
  intro m heights
  obtain ⟨hleads, more, hmore, hrun⟩ := hx m heights
  have hafter : (do return g (view (← p)) : Exec γ).final m = p.final m := by
    simp only [final, Bind.bind, EStateM.bind]
    cases p m <;> rfl
  refine ⟨hafter ▸ hleads, more, hmore, ?_⟩
  cases hp : p m with
  | ok a m' =>
    simp only [hp, beside] at hrun
    simp only [Bind.bind, EStateM.bind, hp, hrun]
    rfl
  | error h m' =>
    simp only [hp, beside] at hrun
    simp only [Bind.bind, EStateM.bind, hp, hrun]
    rfl

theorem run_bind {x : StackExec α} {k : α → StackExec β} {s t : StackMachine} {a : α}
    (h : x s = .ok a t) : (x >>= k) s = k a t := by
  simp only [Bind.bind, EStateM.bind, h]

theorem modify_run (f : StackMachine → StackMachine) (s : StackMachine) :
    (modify f : StackExec Unit) s = .ok () (f s) := rfl

theorem get_run (s : StackMachine) : (get : StackExec StackMachine) s = .ok s s := rfl

theorem pushFrame_run (setting : Setting) (m : Machine) (env : List Nat)
    (calls : List (Option Value)) (heights : List Nat) :
    pushFrame setting ⟨m, env, calls, heights⟩ =
      .ok () ⟨m.opened setting, m.frames.size :: env, calls, heights⟩ := by
  simp [pushFrame, StackExec.lift, note_run, Bind.bind, EStateM.bind, modify_run, Machine.opened]

/-- What runs in a frame of its own. -/
theorem Mirrors.inFrame (setting : Setting) {x : StackExec β} {body : List Nat → Exec α}
    (hx : ∀ frame, Mirrors view left (frame :: env) calls x (body (frame :: env))) :
    Mirrors view left env calls (do pushFrame setting; ensuring x (popFrame setting))
      (Exec.inFrame setting env body) := by
  intro m heights
  obtain ⟨hleads, more, hmore, hrun⟩ := hx m.frames.size (m.opened setting) heights
  have hpop : ∀ m' calls', popFrame setting ⟨m', m.frames.size :: env, calls', more ++ heights⟩ =
      .ok () ⟨m'.tell setting .pop, env, calls', more ++ heights⟩ := by
    intro m' calls'
    simp [popFrame, StackExec.lift, note_run, Bind.bind, EStateM.bind, modify_run]
  rw [final, inFrame_run]
  simp only [Bind.bind, EStateM.bind, pushFrame_run, ensuring, hrun]
  unfold final at hleads
  cases hbody : body (m.frames.size :: env) (m.opened setting) with
  | ok a m' =>
    simp only [hbody] at hleads
    refine ⟨hleads.framed setting, more, hmore, ?_⟩
    simp only [beside, hpop]
    rfl
  | error h m' =>
    simp only [hbody] at hleads
    refine ⟨hleads.framed setting, more, hmore, ?_⟩
    simp only [beside, hpop]
    rfl

end

section

variable {env : List Nat} {below : List (Option Value)}

theorem Marks.next {x : StackExec Unit} {p : Exec Unit} (hx : Yields env (none :: below) x p) :
    Marks env below x (do p; return .next) := by
  intro m heights
  obtain ⟨hleads, more, hmore, hrun⟩ := hx m heights
  have hafter : (do p; return Flow.next : Exec Flow).final m = p.final m := by
    simp only [final, Bind.bind, EStateM.bind]
    cases p m <;> rfl
  refine ⟨hafter ▸ hleads, more, hmore, hrun.trans ?_⟩
  cases hp : p m <;> simp only [Bind.bind, EStateM.bind, hp] <;> rfl

/-- A statement and, unless it returns, what follows it. -/
theorem Marks.andThen {x y : StackExec Unit} {p q : Exec Flow} (hx : Marks env below x p)
    (hy : Marks env below y q) :
    Marks env below (do x; if (← returned).isNone then y) (do
      match ← p with
      | .next => q
      | .returned value => return .returned value) := by
  intro m heights
  obtain ⟨hleads, more, hmore, hrun⟩ := hx m heights
  cases hp : p m with
  | ok flow m' =>
    rw [final_of_ok hp] at hleads
    rw [final_bind_of_ok hp]
    simp only [hp, beside] at hrun
    cases flow with
    | next =>
      obtain ⟨hleads', more', hmore', hrun'⟩ := hy m' (more ++ heights)
      refine ⟨hleads.trans hleads', more' ++ more, hmore.append hmore', ?_⟩
      simp only [Bind.bind, EStateM.bind, hp, hrun, List.append_assoc]
      exact hrun'
    | returned v =>
      refine ⟨hleads, more, hmore, ?_⟩
      simp only [Bind.bind, EStateM.bind, hp, hrun]
      rfl
  | error h m' =>
    rw [final_bind_of_error hp]
    simp only [final, hp] at hleads
    refine ⟨hleads, more, hmore, ?_⟩
    simp only [hp, beside] at hrun
    simp only [Bind.bind, EStateM.bind, hp, hrun, beside]

theorem Marks.whileLoop {test : StackExec Bool} {test' : Exec Bool} {body : StackExec Unit}
    {body' : Exec Flow} (htest : Yields env (none :: below) test test')
    (hbody : Marks env below body body') (rounds : Nat) :
    Marks env below (whileLoop test body rounds) (Exec.whileLoop test' body' rounds) := by
  induction rounds with
  | zero => exact fun m _ => ⟨.refl m, [], inBounds_nil, rfl⟩
  | succ rounds ih =>
    refine Mirrors.bind htest fun holds => ?_
    cases holds with
    | false => exact Marks.next (Yields.pure ())
    | true => exact hbody.andThen ih

end

end StackExec

open StackExec

section

variable {setting : Setting} {invoke : Invoke} {stackInvoke : StackInvoke}
  {calls : List (Option Value)}

theorem StackExec.Yields.call {env : List Nat}
    (hinvoke : ∀ f args loc, Yields env calls (stackInvoke f args loc) (invoke f args loc))
    (f : Callable) (args : List Value) (loc : Location) :
    Yields env calls (f.stackCall setting stackInvoke args loc) (f.call setting invoke args loc) := by
  cases f with
  | closure f => exact hinvoke f args loc
  | print => exact Yields.lift ((Exec.Leads.writeLine setting _).bind fun _ => .pure _)

mutual

/-- An expression leaves the stacks as they were. -/
theorem StackExec.Yields.eval {env : List Nat}
    (hinvoke : ∀ f args loc, Yields env calls (stackInvoke f args loc) (invoke f args loc)) :
    (e : Expr) → Yields env calls (e.stackEval setting stackInvoke) (e.eval setting invoke env)
  | .literal _ _ => .pure _
  | .var id loc => by
    simp only [Expr.stackEval, Expr.eval]
    exact Mirrors.bind (Yields.inScope (Exec.Leads.lookup setting env id loc)) fun _ => Yields.pure _
  | .group inner _ => by
    simp only [Expr.stackEval, Expr.eval]
    exact Yields.eval hinvoke inner
  | .assign target value loc => by
    simp only [Expr.stackEval, Expr.eval]
    cases target.unparen with
    | var id loc =>
      refine Mirrors.bind (Yields.inScope (Exec.Leads.lookup setting env id loc)) fun x => ?_
      refine Mirrors.bind (Yields.eval hinvoke value) fun v => ?_
      exact Mirrors.bind (Yields.lift (.assign x.1 _ _)) fun _ => Yields.pure _
    | literal | assign | unary | binary | call | group => exact Yields.lift (.fault _ _ _)
  | .unary op operand loc => by
    simp only [Expr.stackEval, Expr.eval]
    exact Mirrors.bind (Yields.eval hinvoke operand) fun v => Yields.lift (.unary op v loc)
  | .binary op left right loc => by
    simp only [Expr.stackEval, Expr.eval]
    refine Mirrors.bind (Yields.eval hinvoke left) fun v => ?_
    exact Mirrors.bind (Yields.eval hinvoke right) fun w => Yields.lift (.binary op v w loc)
  | .call callee args loc => by
    simp only [Expr.stackEval, Expr.eval]
    refine Mirrors.bind (Yields.eval hinvoke callee) fun v => ?_
    cases v with
    | func f =>
      refine Mirrors.bind (Yields.lift (.checkArity f args.length loc)) fun _ => ?_
      exact Mirrors.bind (Yields.evalAll hinvoke args) fun vs => Yields.call hinvoke f vs loc
    | void | int | uint | bool =>
      exact Yields.lift ((Exec.Leads.describe setting callee _).bind fun _ => .fault _ _ _)

theorem StackExec.Yields.evalAll {env : List Nat}
    (hinvoke : ∀ f args loc, Yields env calls (stackInvoke f args loc) (invoke f args loc)) :
    (es : List Expr) →
    Yields env calls (Expr.stackEvalAll setting stackInvoke es) (Expr.evalAll setting invoke env es)
  | [] => .pure _
  | e :: rest => by
    simp only [Expr.stackEvalAll, Expr.evalAll]
    refine Mirrors.bind (Yields.eval hinvoke e) fun v => ?_
    exact Mirrors.bind (Yields.evalAll hinvoke rest) fun vs => Yields.pure _

end

theorem StackExec.Yields.evalOr {env : List Nat}
    (hinvoke : ∀ f args loc, Yields env calls (stackInvoke f args loc) (invoke f args loc))
    (default : Value) (e : Option Expr) :
    Yields env calls (Expr.stackEvalOr setting stackInvoke default e)
      (Expr.evalOr setting invoke env default e) := by
  cases e with
  | none => exact .pure _
  | some e => exact .eval hinvoke e

end

section

variable {setting : Setting} {invoke : Invoke} {stackInvoke : StackInvoke}
  {below : List (Option Value)}

mutual

/-- A statement leaves the stacks as they were, but for the mark of the call that is active. -/
theorem StackExec.Marks.exec
    (hinvoke : ∀ env f args loc,
      Yields env (none :: below) (stackInvoke f args loc) (invoke f args loc)) (env : List Nat) :
    (s : Stmt) → Marks env below (s.stackExec setting stackInvoke) (s.exec setting invoke env)
  | .function id params result body bodyLoc loc => by
    simp only [Stmt.stackExec, Stmt.exec]
    refine Mirrors.bind (Yields.lift (.note setting (Event.neutral_exec _))) fun _ => ?_
    refine Mirrors.bind (Yields.lift (.nameOf setting id)) fun name => ?_
    exact Marks.next (Yields.inScope (Exec.Leads.declare env id _ _))
  | .var id type init loc => by
    simp only [Stmt.stackExec, Stmt.exec]
    refine Mirrors.bind (Yields.lift (.note setting (Event.neutral_exec _))) fun _ => ?_
    refine Mirrors.bind (Yields.evalOr (hinvoke env) _ init) fun v => ?_
    exact Marks.next (Yields.inScope (Exec.Leads.declare env id _ _))
  | .block body loc => by
    simp only [Stmt.stackExec, Stmt.exec]
    refine Mirrors.bind (Yields.lift (.note setting (Event.neutral_exec _))) fun _ => ?_
    exact Mirrors.inFrame setting fun frame => Marks.execAll hinvoke (frame :: env) body
  | .conditional cond body none loc => by
    simp only [Stmt.stackExec, Stmt.exec]
    refine Mirrors.bind (Yields.lift (.note setting (Event.neutral_exec _))) fun _ => ?_
    refine Mirrors.bind (Yields.eval (hinvoke env) cond) fun v => ?_
    split
    · exact Marks.exec hinvoke env body
    · exact Marks.next (Yields.pure ())
  | .conditional cond body (some other) loc => by
    simp only [Stmt.stackExec, Stmt.exec]
    refine Mirrors.bind (Yields.lift (.note setting (Event.neutral_exec _))) fun _ => ?_
    refine Mirrors.bind (Yields.eval (hinvoke env) cond) fun v => ?_
    split
    · exact Marks.exec hinvoke env body
    · exact Marks.exec hinvoke env other
  | .loop cond body loc => by
    simp only [Stmt.stackExec, Stmt.exec]
    refine Mirrors.bind (Yields.lift (.note setting (Event.neutral_exec _))) fun _ => ?_
    refine Marks.whileLoop ?_ (Marks.exec hinvoke env body) setting.budget
    rw [map_eq_pure_bind, map_eq_pure_bind]
    exact Mirrors.bind (Yields.eval (hinvoke env) cond) fun v => Yields.pure _
  | .returning value loc => by
    simp only [Stmt.stackExec, Stmt.exec]
    refine Mirrors.bind (Yields.lift (.note setting (Event.neutral_exec _))) fun _ => ?_
    refine Mirrors.bind (Yields.evalOr (hinvoke env) _ value) fun v => ?_
    exact fun m _ => ⟨.refl m, [], inBounds_nil, rfl⟩
  | .expr e loc => by
    simp only [Stmt.stackExec, Stmt.exec]
    refine Mirrors.bind (Yields.lift (.note setting (Event.neutral_exec _))) fun _ => ?_
    refine Mirrors.bind (Yields.eval (hinvoke env) e) fun v => ?_
    exact Marks.next (Yields.pure ())

theorem StackExec.Marks.execAll
    (hinvoke : ∀ env f args loc,
      Yields env (none :: below) (stackInvoke f args loc) (invoke f args loc)) (env : List Nat) :
    (ss : List Stmt) →
    Marks env below (Stmt.stackExecAll setting stackInvoke ss) (Stmt.execAll setting invoke env ss)
  | [] => by
    simp only [Stmt.stackExecAll, Stmt.execAll]
    exact Marks.next (Yields.pure ())
  | s :: rest => by
    simp only [Stmt.stackExecAll, Stmt.execAll]
    exact (Marks.exec hinvoke env s).andThen (Marks.execAll hinvoke env rest)

end

end

namespace Closure

theorem resultMarked_mark (f : Closure) (flow : Flow) :
    f.resultMarked (mark flow) = f.resultOf flow := by
  unfold resultMarked
  cases flow <;> rfl

theorem bind_run (scope : List Nat) (params : List Param) (args : List Value) (m : Machine) :
    ∃ m', bind scope params args m = .ok () m' := by
  induction params generalizing args m with
  | nil => exact ⟨m, rfl⟩
  | cons p params ih =>
    cases args with
    | nil => exact ⟨m, rfl⟩
    | cons v args => exact ih args _

/-- The body of a call runs in a new frame in which the parameters are bound, and the call is
active. -/
theorem stackBody_run {setting : Setting} {f : Closure} {args : List Value} {env heights : List Nat}
    {calls : List (Option Value)} {body : StackExec Unit} {m m₁ : Machine}
    (hbind : bind (m.frames.size :: f.scope) f.params args (m.opened setting) = .ok () m₁) :
    stackBody setting f args body ⟨m, env, calls, heights⟩ =
      ensuring (do body; returned) (do
        popCall
        lift (note setting .pop)
        modify fun s => { s with env }) ⟨m₁, m.frames.size :: f.scope, none :: calls,
          (calls.length + 1) :: heights⟩ := by
  have hopen : pushFrame setting ⟨m, f.scope, calls, heights⟩ =
      .ok () ⟨m.opened setting, m.frames.size :: f.scope, calls, heights⟩ := pushFrame_run ..
  have hparams : inScope (fun scope => bind scope f.params args)
      ⟨m.opened setting, m.frames.size :: f.scope, calls, heights⟩ =
        .ok () ⟨m₁, m.frames.size :: f.scope, calls, heights⟩ := by
    simp only [inScope, lift, Bind.bind, EStateM.bind, get_run, hbind]
  unfold stackBody
  refine (StackExec.run_bind (t := ⟨m, env, calls, heights⟩) rfl).trans ?_
  refine (StackExec.run_bind (t := ⟨m, f.scope, calls, heights⟩) rfl).trans ?_
  refine (StackExec.run_bind hopen).trans ?_
  exact (StackExec.run_bind hparams).trans rfl

/-- A call that ends is no longer active, and the frames in scope are put back. -/
theorem leave_run (setting : Setting) (m : Machine) (env scope heights : List Nat)
    (mark : Option Value) (calls : List (Option Value)) :
    (do
      popCall
      lift (note setting .pop)
      modify fun s => { s with env } : StackExec Unit) ⟨m, scope, mark :: calls, heights⟩ =
      .ok () ⟨m.tell setting .pop, env, calls, calls.length :: heights⟩ := by
  simp [popCall, setCalls, lift, note_run, Bind.bind, EStateM.bind, modify_run, get_run]

/-- The frames in scope are put back, and the call is no longer active, however the body ends. -/
theorem mirrors_stackBody {setting : Setting} {f : Closure} {args : List Value} {env : List Nat}
    {calls : List (Option Value)} (hpos : 1 ≤ calls.length) (hle : calls.length ≤ maxCalls)
    {body : StackExec Unit} {p : List Nat → Exec Flow}
    (hbody : ∀ scope, Marks scope calls body (p scope)) :
    Mirrors mark (fun _ => calls) env calls (stackBody setting f args body)
      (inFrame setting f.scope fun scope => do bind scope f.params args; p scope) := by
  intro m heights
  obtain ⟨m₁, hbind⟩ := bind_run (m.frames.size :: f.scope) f.params args (m.opened setting)
  have hfirst := Exec.Leads.bindParams (m.frames.size :: f.scope) f.params args (m.opened setting)
  rw [final_of_ok hbind] at hfirst
  obtain ⟨hleads, more, hmore, hrun⟩ :=
    hbody (m.frames.size :: f.scope) m₁ ((calls.length + 1) :: heights)
  have hwhole := (hfirst.trans hleads).framed setting
  have hbounds : InBounds (calls.length :: more ++ [calls.length + 1]) := by
    have hlast : InBounds [calls.length + 1] := by simp [InBounds, hle]
    have hnow : InBounds [calls.length] := by
      simp only [InBounds, List.mem_singleton, forall_eq]
      omega
    exact hlast.append (hmore.append hnow)
  have hheights : (calls.length :: more ++ [calls.length + 1]) ++ heights =
      calls.length :: (more ++ (calls.length + 1) :: heights) := by simp
  rw [stackBody_run hbind, final, inFrame_run]
  unfold final at hwhole
  simp only [Bind.bind, EStateM.bind, hbind, ensuring, hrun] at hwhole ⊢
  cases hp : p (m.frames.size :: f.scope) m₁ with
  | ok flow m' =>
    simp only [hp] at hwhole
    refine ⟨hwhole, _, hbounds, ?_⟩
    rw [hheights]
    exact StackExec.run_bind (leave_run setting m' env _ _ (mark flow) calls)
  | error h m' =>
    simp only [hp] at hwhole
    refine ⟨hwhole, _, hbounds, ?_⟩
    rw [hheights]
    exact StackExec.run_bind (leave_run setting m' env _ _ none calls)

/-- A call leaves the stacks as they were, also when it stops early, and is refused when there is
no room for it. -/
theorem yields_stackInvoke (setting : Setting) (room : Nat) {fuel : Nat} (hfuel : room ≤ fuel)
    {calls : List (Option Value)} (hcalls : calls ≠ [])
    (hroom : calls.length + room = maxCalls + 1) (env : List Nat) (f : Closure) (args : List Value)
    (loc : Location) :
    Yields env calls (stackInvoke setting fuel f args loc)
      (invokeWithin setting room f args loc) := by
  induction room generalizing fuel calls env f args loc with
  | zero =>
    have hfull : maxCalls < calls.length := by omega
    intro m heights
    refine ⟨.refl m, [], inBounds_nil, ?_⟩
    unfold stackInvoke
    simp only [Bind.bind, EStateM.bind, get_run, hfull, if_true]
    rfl
  | succ room ih =>
    obtain ⟨fuel, rfl⟩ : ∃ n, fuel = n + 1 := ⟨fuel - 1, by omega⟩
    have hpos : 1 ≤ calls.length := List.length_pos_iff.2 hcalls
    have hfree : ¬maxCalls < calls.length := by omega
    have hinner : ∀ env f args loc, Yields env (none :: calls) (stackInvoke setting fuel f args loc)
        (invokeWithin setting room f args loc) := by
      intro env f args loc
      have hlength : (none :: calls).length + room = maxCalls + 1 := by
        rw [List.length_cons]
        omega
      exact ih (by omega) (List.cons_ne_nil _ _) hlength env f args loc
    have hbody : ∀ scope, Marks scope calls
        (Stmt.stackExec setting (stackInvoke setting fuel) (.block f.body .none))
        (Stmt.exec setting (invokeWithin setting room) scope (.block f.body .none)) :=
      fun scope => .exec hinner scope _
    have hwhole : Yields env calls (do
        lift (note setting (.call f.name))
        let mark ← stackBody setting f args
          (Stmt.stackExec setting (stackInvoke setting fuel) (.block f.body .none))
        return f.resultMarked mark) (invokeWithin setting (room + 1) f args loc) := by
      refine Mirrors.bind (Yields.lift (.note setting (Event.neutral_call _))) fun _ => ?_
      simp only [← resultMarked_mark]
      exact (mirrors_stackBody hpos (by omega) hbody).result f.resultMarked
    intro m heights
    obtain ⟨hleads, more, hmore, hrun⟩ := hwhole m heights
    refine ⟨hleads, more, hmore, Eq.trans ?_ hrun⟩
    unfold stackInvoke
    refine (StackExec.run_bind (t := ⟨m, env, calls, heights⟩) rfl).trans ?_
    simp only [hfree, if_false]

end Closure

namespace StackMachine

/-- The frames in scope are the same, as many calls are active, and there was always room for those
that were active in between. -/
structure Restored (s t : StackMachine) : Prop where
  env_eq : t.env = s.env
  height_eq : t.calls.length = s.calls.length
  heights : ∃ more, t.heights = more ++ s.heights ∧ InBounds more

end StackMachine

namespace StackExec

variable {α β : Type} {setting : Setting}

/-- The machine that a computation leaves, however it ends. -/
def final (x : StackExec α) (s : StackMachine) : StackMachine :=
  match x s with
  | .ok _ t | .error _ t => t

theorem Mirrors.restored {view : α → β} {left : α → List (Option Value)} {x : StackExec β}
    {p : Exec α} {s : StackMachine} (h : Mirrors view left s.env s.calls x p)
    (hleft : ∀ a, (left a).length = s.calls.length) : s.Restored (x.final s) := by
  obtain ⟨_, more, hmore, hrun⟩ := h s.machine s.heights
  unfold final
  rw [show x s = _ from hrun]
  cases p s.machine with
  | ok a m => exact ⟨rfl, hleft a, more, rfl, hmore⟩
  | error e m => exact ⟨rfl, rfl, more, rfl, hmore⟩

/-- Calls from a state in which calls are active, but not too many. -/
theorem Yields.invoke {calls : List (Option Value)} (hcalls : calls ≠ [])
    (hle : calls.length ≤ maxCalls + 1) (env : List Nat) (f : Closure) (args : List Value)
    (loc : Location) :
    Yields env calls (Closure.stackInvoke setting maxCalls f args loc)
      (Closure.invokeWithin setting (maxCalls + 1 - calls.length) f args loc) := by
  have hpos := List.length_pos_iff.2 hcalls
  exact Closure.yields_stackInvoke setting _ (by omega) hcalls (by omega) env f args loc

theorem restored_eval (e : Expr) {s : StackMachine} (hcalls : s.calls ≠ [])
    (hle : s.calls.length ≤ maxCalls + 1) :
    s.Restored ((e.stackEval setting (Closure.stackInvoke setting maxCalls)).final s) := by
  have h : Yields s.env s.calls (e.stackEval setting (Closure.stackInvoke setting maxCalls))
      (e.eval setting (Closure.invokeWithin setting (maxCalls + 1 - s.calls.length)) s.env) :=
    .eval (Yields.invoke hcalls hle s.env) e
  exact h.restored fun _ => rfl

theorem restored_exec (stmt : Stmt) {s : StackMachine} (hcalls : s.calls.head? = some none)
    (hle : s.calls.length ≤ maxCalls + 1) :
    s.Restored ((stmt.stackExec setting (Closure.stackInvoke setting maxCalls)).final s) := by
  obtain ⟨below, hbelow⟩ := List.head?_eq_some_iff.1 hcalls
  have h : Marks s.env below (stmt.stackExec setting (Closure.stackInvoke setting maxCalls))
      (stmt.exec setting (Closure.invokeWithin setting (maxCalls + 1 - s.calls.length)) s.env) := by
    rw [hbelow] at hle ⊢
    exact .exec (Yields.invoke (List.cons_ne_nil _ _) hle) s.env stmt
  rw [Marks, ← hbelow] at h
  exact h.restored fun flow => by rw [hbelow, List.length_cons, List.length_cons]

end StackExec

namespace StackSession

variable {α : Type}

/-- With the program's own frame in scope and its own call active, `x` does what `p` does, and
both are so again. -/
def Settles (before : Option Value) (x : StackExec α) (p : Exec α) : Prop :=
  ∀ m heights, m.Leads (p.final m) ∧ ∃ more mark, InBounds more ∧
    x ⟨m, [0], [before], heights⟩ = beside id (fun _ => [mark]) [0] [mark] (more ++ heights) (p m)

theorem yields_invoke (setting : Setting) (env : List Nat) (f : Closure) (args : List Value)
    (loc : Location) :
    Yields env [none] (Closure.stackInvoke setting maxCalls f args loc)
      (Closure.invoke setting f args loc) :=
  Closure.yields_stackInvoke setting maxCalls (Nat.le_refl _) (List.cons_ne_nil _ _) rfl env f args
    loc

theorem Settles.bind {β : Type} {x : StackExec α} {p : Exec α} {k : α → StackExec β}
    {k' : α → Exec β} (hx : Yields [0] [none] x p) (hk : ∀ a, Settles none (k a) (k' a)) :
    Settles none (x >>= k) (p >>= k') := by
  intro m heights
  obtain ⟨hleads, more, hmore, hrun⟩ := hx m heights
  cases hp : p m with
  | ok a m' =>
    obtain ⟨hleads', more', mark, hmore', hrun'⟩ := hk a m' (more ++ heights)
    rw [final_of_ok hp] at hleads
    rw [final_bind_of_ok hp]
    refine ⟨hleads.trans hleads', more' ++ more, mark, hmore.append hmore', ?_⟩
    simp only [hp, beside, id] at hrun
    simp only [Bind.bind, EStateM.bind, hp, hrun, hrun', List.append_assoc]
  | error h m' =>
    rw [final_bind_of_error hp]
    simp only [Exec.final, hp] at hleads
    refine ⟨hleads, more, none, hmore, ?_⟩
    simp only [hp, beside] at hrun
    simp only [Bind.bind, EStateM.bind, hp, hrun, beside]

/-- A statement and what follows it, which depends on the mark. -/
theorem Settles.after {x : StackExec Unit} {p : Exec Flow} {k : Option Value → StackExec α}
    {k' : Flow → Exec α} (hx : Marks [0] [] x p) (hnext : Settles none (k none) (k' .next))
    (hreturned : ∀ v, Settles (some v) (k (some v)) (k' (.returned v))) :
    Settles none (do x; k (← returned)) (p >>= k') := by
  intro m heights
  obtain ⟨hleads, more, hmore, hrun⟩ := hx m heights
  cases hp : p m with
  | ok flow m' =>
    have hk : Settles (mark flow) (k (mark flow)) (k' flow) := by
      cases flow with
      | next => exact hnext
      | returned v => exact hreturned v
    obtain ⟨hleads', more', mark', hmore', hrun'⟩ := hk m' (more ++ heights)
    rw [final_of_ok hp] at hleads
    rw [final_bind_of_ok hp]
    refine ⟨hleads.trans hleads', more' ++ more, mark', hmore.append hmore', ?_⟩
    simp only [hp, beside] at hrun
    refine (run_bind hrun).trans ((run_bind (a := mark flow) rfl).trans ?_)
    simp only [Bind.bind, EStateM.bind, hp, hrun', List.append_assoc]
  | error h m' =>
    rw [final_bind_of_error hp]
    simp only [Exec.final, hp] at hleads
    refine ⟨hleads, more, none, hmore, ?_⟩
    simp only [hp, beside] at hrun
    simp only [Bind.bind, EStateM.bind, hp, hrun, beside]

theorem Settles.pure (before : Option Value) (a : α) :
    Settles before (Pure.pure a) (Pure.pure a) :=
  fun m _ => ⟨.refl m, [], before, inBounds_nil, rfl⟩

theorem settles_execAll (setting : Setting) (last : Value) (ss : List Stmt) :
    Settles none (execAll setting last ss) (Session.execAll setting last ss) := by
  induction ss generalizing last with
  | nil => exact .pure none last
  | cons s rest ih =>
    cases s with
    | expr e loc => exact .bind (.eval (yields_invoke setting [0]) e) fun v => ih v
    | function | var | block | conditional | loop | returning =>
      exact .after (.exec (yields_invoke setting) [0] _) (ih last) fun v => .pure (some v) v

/-- The session without its stacks. -/
def plain (s : StackSession) : Session := ⟨s.table, s.frames⟩

/-- The program's own frame alone is in scope, and its own call alone is active. -/
def AtRoot (s : StackSession) : Prop := s.env = [0] ∧ s.calls.length = 1

theorem AtRoot.exists_mark {s : StackSession} (h : s.AtRoot) : ∃ mark, s.calls = [mark] :=
  List.length_eq_one_iff.1 h.2

end StackSession

/-- The program's own frame binds the name. -/
def Session.Binds (s : Session) (id : Int) : Prop :=
  (Frame.find? (s.frames[0]?.getD []) id).isSome

/-- A run with stacks gives what the run without gives. It ends with the program's own frame and
call, never too few or too many calls were active, and the frames it opened and left are balanced. -/
structure StackRan.Agrees {α : Type} (ran : StackRan α) (ran' : Ran α) : Prop where
  result_eq : ran.result = ran'.result
  output_eq : ran.output = ran'.output
  trace_eq : ran.trace = ran'.trace
  session_eq : ran.session.plain = ran'.session
  atRoot : ran.session.AtRoot
  inBounds : InBounds ran.heights
  balanced : Event.Balanced ran.trace

namespace StackSession

variable {α : Type}

theorem balanced_of_leads {frames : Array Frame} {m : Machine}
    (h : Machine.Leads ⟨frames, "", []⟩ m) : Event.Balanced m.events.reverse := by
  obtain ⟨told, htold, hneutral⟩ := h.told
  have hnest := hneutral 0 []
  rw [List.append_nil] at htold hnest
  rw [htold]
  exact hnest

/-- A run that settles agrees with the run without stacks, and keeps what is bound. -/
theorem agrees_perform {s : StackSession} {before : Option Value} (henv : s.env = [0])
    (hcalls : s.calls = [before]) {x : StackExec α} {p : Exec α} (h : Settles before x p) :
    (s.perform x).Agrees (s.plain.perform p) ∧
      ∀ id, s.plain.Binds id → (s.plain.perform p).session.Binds id := by
  obtain ⟨hleads, more, mark, hmore, hrun⟩ := h ⟨s.frames, "", []⟩ [1]
  have hbounds : InBounds (more ++ [1]).reverse := by
    intro n hn
    exact inBounds_one.append hmore n (List.mem_reverse.1 hn)
  have hbinds : ∀ m : Machine, Machine.Leads ⟨s.frames, "", []⟩ m → ∀ id, s.plain.Binds id →
      Session.Binds ⟨s.table, m.frames⟩ id := by
    intro m hm id hid
    have hbound := hm.bound 0 id
    simp only [Machine.typeAt, Option.isSome_map] at hbound
    exact hbound hid
  have hstart : x ⟨⟨s.frames, "", []⟩, s.env, s.calls, [s.calls.length]⟩ =
      beside id (fun _ => [mark]) [0] [mark] (more ++ [1]) (p ⟨s.frames, "", []⟩) := by
    rw [henv, hcalls]
    exact hrun
  unfold perform Session.perform
  rw [hstart]
  unfold Exec.final at hleads
  cases hp : p ⟨s.frames, "", []⟩ with
  | ok a m =>
    simp only [hp] at hleads
    simp only [plain, hp, beside]
    exact ⟨⟨rfl, rfl, rfl, rfl, ⟨rfl, rfl⟩, hbounds, balanced_of_leads hleads⟩, hbinds m hleads⟩
  | error e m =>
    simp only [hp] at hleads
    simp only [plain, hp, beside]
    exact ⟨⟨rfl, rfl, rfl, rfl, ⟨rfl, rfl⟩, hbounds, balanced_of_leads hleads⟩, hbinds m hleads⟩

theorem agrees_run (s : StackSession) (options : RunOptions) (p : Program) :
    (s.run options p).Agrees (s.plain.run options p) := by
  have hsettles : ∀ setting, Settles none
      (do
        Stmt.stackExecAll setting (Closure.stackInvoke setting maxCalls) p.body
        return ((← returned).map Value.exitCode).getD 0)
      (do
        match ← Stmt.execAll setting (Closure.invoke setting) Session.scope p.body with
        | .next => return 0
        | .returned value => return value.exitCode) := fun setting =>
    .after (.execAll (yields_invoke setting) [0] p.body) (.pure none 0) fun v => .pure (some v) _
  exact (agrees_perform (s := start s.table) rfl rfl (hsettles _)).1

/-- The call of the program itself starts anew. When the run stops early nothing is left to clear. -/
theorem settles_exec (before : Option Value) (setting : Setting) (ss : List Stmt) :
    Settles before (do
      setReturned none
      fun t =>
        match execAll setting .void ss t with
        | .ok a t => .ok a t
        | .error h t => (do unwind; throw h) t) (Session.execAll setting .void ss) := by
  intro m heights
  obtain ⟨hleads, more, mark, hmore, hrun⟩ := settles_execAll setting .void ss m heights
  have hanew : setReturned none ⟨m, [0], [before], heights⟩ = .ok () ⟨m, [0], [none], heights⟩ := rfl
  cases hp : Session.execAll setting .void ss m with
  | ok v m' =>
    simp only [hp, beside] at hrun
    refine ⟨hleads, more, mark, hmore, (run_bind hanew).trans ?_⟩
    simp only [hrun]
    rfl
  | error h m' =>
    simp only [hp, beside] at hrun
    refine ⟨hleads, [1] ++ more, mark, hmore.append inBounds_one, (run_bind hanew).trans ?_⟩
    simp only [hrun]
    rfl

theorem agrees_exec {s : StackSession} (h : s.AtRoot) (options : RunOptions) (p : Program) :
    (s.exec options p).Agrees (s.plain.exec options p) ∧
      ∀ id, s.plain.Binds id → (s.plain.exec options p).session.Binds id := by
  obtain ⟨mark, hmark⟩ := h.exists_mark
  exact agrees_perform h.1 hmark (settles_exec mark _ p.body)

/-- A session as any number of runs leaves it, in whatever way they end. The table of names may
grow in between, when further programs are read. -/
inductive Reachable : StackSession → Prop where
  | start (table : SymbolTable) : Reachable (start table)
  | run {s : StackSession} (h : Reachable s) (table : SymbolTable) (options : RunOptions)
      (p : Program) : Reachable (run { s with table } options p).session
  | exec {s : StackSession} (h : Reachable s) (table : SymbolTable) (options : RunOptions)
      (p : Program) : Reachable (exec { s with table } options p).session

theorem Reachable.atRoot {s : StackSession} (h : s.Reachable) : s.AtRoot := by
  induction h with
  | start table => exact ⟨rfl, rfl⟩
  | run _ table options p _ => exact (agrees_run _ options p).atRoot
  | @exec s _ table options p ih =>
    have hroot : AtRoot { s with table } := ih
    exact (agrees_exec hroot options p).1.atRoot

/-- Whatever a session runs, and however the runs end. An expression or a statement leaves the frames
in scope as they were, and as many calls active. Between the runs the program's own frame is in scope
and its own call active, each alone. A run gives what it gives without stacks; between one and a
thousand calls are active throughout, and what it tells of frames is balanced. A name that the program
has bound stays bound. -/
theorem stack_discipline {s : StackSession} (h : s.Reachable) :
    s.AtRoot ∧
    (∀ setting (e : Expr) (t : StackMachine), t.calls ≠ [] → t.calls.length ≤ 1000 →
      t.Restored ((e.stackEval setting (Closure.stackInvoke setting maxCalls)).final t)) ∧
    (∀ setting (stmt : Stmt) (t : StackMachine), t.calls.head? = some none →
      t.calls.length ≤ 1000 →
      t.Restored ((stmt.stackExec setting (Closure.stackInvoke setting maxCalls)).final t)) ∧
    ∀ table options p,
      (run { s with table } options p).Agrees (Session.run { s.plain with table } options p) ∧
      (exec { s with table } options p).Agrees (Session.exec { s.plain with table } options p) ∧
      ∀ id, s.plain.Binds id → (Session.exec { s.plain with table } options p).session.Binds id := by
  refine ⟨h.atRoot, fun setting e t => restored_eval e, fun setting stmt t => restored_exec stmt,
    fun table options p => ⟨agrees_run { s with table } options p, ?_⟩⟩
  have hroot : AtRoot { s with table } := h.atRoot
  exact agrees_exec hroot options p

/-- The function divides by zero inside a block, inside a call, inside a block. -/
theorem stack_discipline_fault :
    let s := start .empty
    let parsed := Program.parse "m" (Source.ofString
      "int8 x = 0; fn f(): int8 { { return 1 / x; } } { f(); }") s.table
    let ran := exec { s with table := parsed.table } ⟨9, true, none⟩ parsed.program
    parsed.report = [] ∧ s.Reachable ∧ ran.result.toOption.isNone ∧ ran.session.AtRoot ∧
      ran.heights = [1, 2, 1, 1] ∧ Event.Balanced ran.trace ∧
      ran.trace.count .push = 4 := by
  intro s parsed ran
  obtain ⟨hclean, hresult, hheights, hpushes⟩ :
      parsed.report = [] ∧ ran.result.toOption.isNone ∧ ran.heights = [1, 2, 1, 1] ∧
        ran.trace.count .push = 4 := by
    decide +kernel
  have hreachable : s.Reachable := .start .empty
  obtain ⟨_, _, _, hruns⟩ := stack_discipline hreachable
  obtain ⟨_, hexec, _⟩ := hruns parsed.table ⟨9, true, none⟩ parsed.program
  exact ⟨hclean, hreachable, hresult, hexec.atRoot, hheights, hexec.balanced, hpushes⟩

end StackSession

end Ember
