import Ember.Run.Session

namespace Ember

/-- `q` does what `p` does, save where `p` ran out of rounds. -/
def Exec.Extends {α : Type} (q p : Exec α) : Prop :=
  ∀ m, (∃ m', p m = .error .exhausted m') ∨ q m = p m

/-- The setting with other rounds for its loops. -/
def Setting.withBudget (setting : Setting) (budget : Nat) : Setting := { setting with budget }

namespace Exec.Extends

variable {α β : Type} {p q : Exec α}

theorem refl (p : Exec α) : Extends p p := fun _ => .inr rfl

theorem bind {k k' : α → Exec β} (hp : Extends q p) (hk : ∀ a, Extends (k' a) (k a)) :
    Extends (q >>= k') (p >>= k) := by
  intro m
  rcases hp m with ⟨m', hm'⟩ | hm
  · left
    exact ⟨m', by simp only [Bind.bind, EStateM.bind, hm']⟩
  · simp only [Bind.bind, EStateM.bind, hm]
    cases p m with
    | ok a m' => exact hk a m'
    | error h m' => exact .inr rfl

theorem map (g : α → β) (hp : Extends q p) : Extends (g <$> q) (g <$> p) := by
  rw [map_eq_pure_bind, map_eq_pure_bind]
  exact hp.bind fun a => refl _

theorem inFrame (setting : Setting) (budget : Nat) (scope : List Nat)
    {body body' : List Nat → Exec α} (hbody : ∀ scope, Extends (body' scope) (body scope)) :
    Extends (Exec.inFrame (setting.withBudget budget) scope body')
      (Exec.inFrame setting scope body) := by
  refine (refl _).bind fun _ => (refl _).bind fun entered => (refl _).bind fun _ => ?_
  intro m
  rcases hbody (entered.frames.size :: scope) m with ⟨m', hm'⟩ | hm
  · left
    simp only [hm']
    unfold Exec.note
    split
    · exact ⟨_, rfl⟩
    · exact ⟨_, rfl⟩
  · right
    simp only [hm]
    rfl

/-- A loop that ends within its rounds does not miss the rounds it is not given. -/
theorem whileLoop {test test' : Exec Bool} {body body' : Exec Flow} (htest : Extends test' test)
    (hbody : Extends body' body) {rounds rounds' : Nat} (hle : rounds ≤ rounds') :
    Extends (Exec.whileLoop test' body' rounds') (Exec.whileLoop test body rounds) := by
  induction rounds generalizing rounds' with
  | zero => exact fun m => .inl ⟨m, rfl⟩
  | succ rounds ih =>
    obtain ⟨more, rfl⟩ : ∃ more, rounds' = more + 1 := ⟨rounds' - 1, by omega⟩
    refine htest.bind fun holds => ?_
    cases holds with
    | false => exact refl _
    | true =>
      refine hbody.bind fun flow => ?_
      cases flow with
      | next => exact ih (by omega)
      | returned v => exact refl _

end Exec.Extends

open Exec

/-- A way to call functions and one that has more rounds. -/
def Invoke.Extends (invoke' invoke : Invoke) : Prop :=
  ∀ f args loc, Exec.Extends (invoke' f args loc) (invoke f args loc)

section

variable {setting : Setting} {budget : Nat} {invoke invoke' : Invoke}

theorem Exec.Extends.call (hinvoke : Invoke.Extends invoke' invoke) (f : Callable)
    (args : List Value) (loc : Location) :
    Extends (f.call (setting.withBudget budget) invoke' args loc)
      (f.call setting invoke args loc) := by
  cases f with
  | closure f => exact hinvoke f args loc
  | print => exact refl _

mutual

theorem Exec.Extends.eval (hinvoke : Invoke.Extends invoke' invoke) (scope : List Nat) :
    (e : Expr) → Extends (e.eval (setting.withBudget budget) invoke' scope)
      (e.eval setting invoke scope)
  | .literal _ _ | .var _ _ => refl _
  | .group inner _ => Exec.Extends.eval hinvoke scope inner
  | .assign target value loc => by
    simp only [Expr.eval]
    split
    · exact (refl _).bind fun x => (Exec.Extends.eval hinvoke scope value).bind fun v => refl _
    · exact refl _
  | .unary op operand loc => (Exec.Extends.eval hinvoke scope operand).bind fun v => refl _
  | .binary op left right loc =>
    (Exec.Extends.eval hinvoke scope left).bind fun v =>
      (Exec.Extends.eval hinvoke scope right).bind fun w => refl _
  | .call callee args loc => by
    simp only [Expr.eval]
    refine (Exec.Extends.eval hinvoke scope callee).bind fun v => ?_
    cases v with
    | func f =>
      refine (refl _).bind fun _ => ?_
      exact (Exec.Extends.evalAll hinvoke scope args).bind fun vs => call hinvoke f vs loc
    | void | int | uint | bool => exact refl _

theorem Exec.Extends.evalAll (hinvoke : Invoke.Extends invoke' invoke) (scope : List Nat) :
    (es : List Expr) → Extends (Expr.evalAll (setting.withBudget budget) invoke' scope es)
      (Expr.evalAll setting invoke scope es)
  | [] => refl _
  | e :: rest =>
    (Exec.Extends.eval hinvoke scope e).bind fun _ =>
      (Exec.Extends.evalAll hinvoke scope rest).bind fun _ => refl _

end

theorem Exec.Extends.evalOr (hinvoke : Invoke.Extends invoke' invoke) (scope : List Nat)
    (default : Value) (e : Option Expr) :
    Extends (Expr.evalOr (setting.withBudget budget) invoke' scope default e)
      (Expr.evalOr setting invoke scope default e) := by
  cases e with
  | none => exact refl _
  | some e => exact Exec.Extends.eval hinvoke scope e

mutual

theorem Exec.Extends.exec (hle : setting.budget ≤ budget)
    (hinvoke : Invoke.Extends invoke' invoke) (scope : List Nat) :
    (s : Stmt) → Extends (s.exec (setting.withBudget budget) invoke' scope)
      (s.exec setting invoke scope)
  | .function .. => refl _
  | .var id type init loc => by
    simp only [Stmt.exec]
    exact (refl _).bind fun _ => (evalOr hinvoke scope _ init).bind fun v => refl _
  | .block body loc => by
    simp only [Stmt.exec]
    refine (refl _).bind fun _ => ?_
    exact inFrame setting budget scope fun scope => Exec.Extends.execAll hle hinvoke scope body
  | .conditional cond body none loc => by
    simp only [Stmt.exec]
    refine (refl _).bind fun _ => (Exec.Extends.eval hinvoke scope cond).bind fun v => ?_
    split
    · exact Exec.Extends.exec hle hinvoke scope body
    · exact refl _
  | .conditional cond body (some other) loc => by
    simp only [Stmt.exec]
    refine (refl _).bind fun _ => (Exec.Extends.eval hinvoke scope cond).bind fun v => ?_
    split
    · exact Exec.Extends.exec hle hinvoke scope body
    · exact Exec.Extends.exec hle hinvoke scope other
  | .loop cond body loc => by
    simp only [Stmt.exec]
    refine (refl _).bind fun _ => ?_
    exact whileLoop ((Exec.Extends.eval hinvoke scope cond).map _)
      (Exec.Extends.exec hle hinvoke scope body) hle
  | .returning value loc => by
    simp only [Stmt.exec]
    exact (refl _).bind fun _ => (evalOr hinvoke scope _ value).bind fun v => refl _
  | .expr e loc => by
    simp only [Stmt.exec]
    exact (refl _).bind fun _ => (Exec.Extends.eval hinvoke scope e).bind fun v => refl _

theorem Exec.Extends.execAll (hle : setting.budget ≤ budget)
    (hinvoke : Invoke.Extends invoke' invoke) (scope : List Nat) :
    (ss : List Stmt) → Extends (Stmt.execAll (setting.withBudget budget) invoke' scope ss)
      (Stmt.execAll setting invoke scope ss)
  | [] => refl _
  | s :: rest => by
    simp only [Stmt.execAll]
    refine (Exec.Extends.exec hle hinvoke scope s).bind fun flow => ?_
    cases flow with
    | next => exact Exec.Extends.execAll hle hinvoke scope rest
    | returned v => exact refl _

end

theorem Closure.invokeWithin_extends (hle : setting.budget ≤ budget) (room : Nat) :
    Invoke.Extends (invokeWithin (setting.withBudget budget) room)
      (invokeWithin setting room) := by
  induction room with
  | zero => exact fun f args loc => .refl _
  | succ room ih =>
    intro f args loc
    refine Exec.Extends.bind (.refl _) fun _ => Exec.Extends.bind ?_ fun flow => .refl _
    refine Exec.Extends.inFrame setting budget f.scope fun scope => ?_
    refine Exec.Extends.bind (.refl _) fun _ => Exec.Extends.bind (.refl _) fun _ => ?_
    exact Exec.Extends.inFrame setting budget scope fun scope => .execAll hle ih scope f.body

end

/-- The run was cut off for want of rounds. -/
def Ran.isExhausted {α : Type} (r : Ran α) : Bool :=
  match r.result with
  | .error .exhausted => true
  | _ => false

namespace Session

/-- With rounds enough for its loops the program comes to an end. -/
def Terminates (s : Session) (traced : Bool) (refusal : Option String) (p : Program) : Prop :=
  ∃ budget, (s.run ⟨budget, traced, refusal⟩ p).isExhausted = false

theorem perform_of_extends (s : Session) {α : Type} {p q : Exec α} (h : Exec.Extends q p)
    (hends : (s.perform p).isExhausted = false) : s.perform q = s.perform p := by
  rcases h ⟨s.frames, "", []⟩ with ⟨m, hm⟩ | hsame
  · simp only [perform, hm] at hends
    cases hends
  · simp only [perform, hsame]

/-- How the end of a program becomes its exit code. -/
def exit : Flow → Exec Int64
  | .next => return 0
  | .returned value => return value.exitCode

theorem run_eq (s : Session) (options : RunOptions) (p : Program) :
    let setting := (start s.table).setting options
    s.run options p = (start s.table).perform
      (Stmt.execAll setting (Closure.invoke setting) scope p.body >>= exit) := rfl

/-- A program that came to an end does the same with more rounds: the rounds are no part of
what it does. -/
theorem run_more_rounds (s : Session) {options : RunOptions} {p : Program}
    (hends : (s.run options p).isExhausted = false) {budget : Nat}
    (hle : options.budget ≤ budget) :
    s.run { options with budget } p = s.run options p := by
  let setting := (start s.table).setting options
  have hexec : Exec.Extends
      (Stmt.execAll (setting.withBudget budget) (Closure.invoke (setting.withBudget budget)) scope
        p.body)
      (Stmt.execAll setting (Closure.invoke setting) scope p.body) :=
    .execAll hle (Closure.invokeWithin_extends hle maxCalls) scope p.body
  have hmain := hexec.bind fun flow => .refl (exit flow)
  rw [run_eq] at hends ⊢
  exact (start s.table).perform_of_extends hmain hends

end Session

end Ember
