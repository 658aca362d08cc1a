import Ember.Proofs.Fold.Run
import Ember.Proofs.Naming.Machine

namespace Ember

/-- Two ways to call functions that agree on functions which are alike. -/
def Invoke.Alike (r : Int → Int → Prop) (q : Location → Location → Prop) (pre : Earlier)
    (invoke invoke' : Invoke) : Prop :=
  ∀ (f f' : Closure) (args args' : List Value) (loc loc' : Location), f.Alike r q f' →
    List.Forall₂ (Value.Alike r q) args args' → q loc loc' →
    Exec.Alike r q pre (Value.Alike r q) (invoke f args loc) (invoke' f' args' loc')

variable {r : Int → Int → Prop} {q : Location → Location → Prop} {pre : Earlier}

theorem Expr.Alike.unparen {e e' : Expr} (h : Expr.Alike r q e e') :
    Expr.Alike r q e.unparen e'.unparen := by
  match h with
  | .group hinner _ => exact hinner.unparen
  | .assign htarget hvalue hloc => exact .assign htarget hvalue hloc
  | .binary hleft hright hloc => exact .binary hleft hright hloc
  | .unary hoperand hloc => exact .unary hoperand hloc
  | .call hcallee hargs hloc => exact .call hcallee hargs hloc
  | .var hid hloc => exact .var hid hloc
  | .literal hloc => exact .literal hloc

namespace Exec.Alike

theorem unary (op : UnaryOp) {v v' : Value} (hv : v.Alike r q v') {loc loc' : Location}
    (hloc : q loc loc') :
    Exec.Alike r q pre (Value.Alike r q) (Value.unary op v loc) (Value.unary op v' loc') := by
  cases op with
  | not =>
    simp only [Value.unary, hv.isTruthy_eq]
    exact pure (.plain trivial)
  | neg =>
    simp only [Value.unary, hv.negate?_eq]
    cases hneg : v'.negate? with
    | none => exact fault _ hloc _
    | some w => exact pure (.plain (Value.isPlain_negate? hneg))

theorem binary (op : BinaryOp) {v v' w w' : Value} (hv : v.Alike r q v') (hw : w.Alike r q w')
    {loc loc' : Location} (hloc : q loc loc') :
    Exec.Alike r q pre (Value.Alike r q) (Value.binary op v w loc)
      (Value.binary op v' w' loc') := by
  simp only [Value.binary, hv.word?_eq, hw.word?_eq, hv.isUnsigned_eq, hw.isUnsigned_eq]
  split
  · split
    · exact fault _ hloc _
    · split
      · rename_i hx
        exact pure (.plain (Value.isPlain_of_operation hx))
      · exact throw (.breach _)
      · exact throw (.breach _)
  · exact fault _ hloc _

theorem describe {setting setting' : Setting} (hsetting : setting.Alike r setting') {e e' : Expr}
    (he : Expr.Alike r q e e') {v v' : Value} (hv : v.Alike r q v') :
    Exec.Alike r q pre Eq (e.describe setting v) (e'.describe setting' v') := by
  have hinner := he.unparen
  unfold Expr.describe
  generalize e.unparen = x, e'.unparen = x' at hinner ⊢
  cases hinner with
  | var hid _ => exact nameOf hsetting hid
  | assign | binary | unary | call | group | literal => exact pure hv.render_eq

theorem checkArity {f f' : Closure} (hf : f.Alike r q f') (actual : Nat) {loc loc' : Location}
    (hloc : q loc loc') :
    Exec.Alike r q pre (fun _ _ => True) ((Callable.closure f).checkArity actual loc)
      ((Callable.closure f').checkArity actual loc') := by
  simp only [Callable.checkArity, Callable.arity?, Callable.name, hf.name, hf.params.length_eq]
  split
  · exact pure trivial
  · exact fault _ hloc _

section

variable {setting setting' : Setting} {invoke invoke' : Invoke}

mutual

/-- Expressions that are alike have values that are. -/
theorem eval (hsetting : setting.Alike r setting') (hinvoke : Invoke.Alike r q pre invoke invoke')
    (scope : List Nat) : ∀ {e e' : Expr}, Expr.Alike r q e e' →
    Exec.Alike r q pre (Value.Alike r q) (e.eval setting invoke scope)
      (e'.eval setting' invoke' scope)
  | _, _, .literal _ => pure (.plain (Value.isPlain_ofLiteral _))
  | _, _, .var hid hloc =>
    (lookup hsetting scope hid hloc).bind fun _ _ hx => pure hx.2.value
  | _, _, .group hinner _ => by
    simp only [Expr.eval]
    exact eval hsetting hinvoke scope hinner
  | .assign target _ _, .assign target' _ _, .assign htarget hvalue _ => by
    have hinner := htarget.unparen
    have hloc := htarget.loc
    have heval := eval hsetting hinvoke scope hvalue
    simp only [Expr.eval]
    generalize target.unparen = x, target'.unparen = x' at hinner ⊢
    cases hinner with
    | var hid hloc =>
      refine (lookup hsetting scope hid hloc).bind fun x x' hx => heval.bind fun v v' hv => ?_
      rw [hx.1]
      have hnarrow : (v.narrow x.2.type).Alike r q (v'.narrow x'.2.type) := by
        rw [hx.2.type]
        exact hv.narrow _
      exact (assign hsetting _ hid hnarrow).bind fun _ _ _ => pure hnarrow
    | assign | binary | unary | call | group | literal => exact fault _ hloc _
  | _, _, .unary hoperand hloc => by
    simp only [Expr.eval]
    exact (eval hsetting hinvoke scope hoperand).bind fun _ _ hv => unary _ hv hloc
  | _, _, .binary hleft hright hloc => by
    simp only [Expr.eval]
    exact (eval hsetting hinvoke scope hleft).bind fun _ _ hv =>
      (eval hsetting hinvoke scope hright).bind fun _ _ hw => binary _ hv hw hloc
  | _, _, .call hcallee hargs hloc => by
    have hall := evalAll hsetting hinvoke scope hargs
    simp only [Expr.eval, hargs.length_eq]
    refine (eval hsetting hinvoke scope hcallee).bind fun v v' hv => ?_
    have hother : Exec.Alike r q pre (Value.Alike r q)
        (do Exec.fault .notCallable _ [("value", .text (← Expr.describe setting _ v))])
        (do Exec.fault .notCallable _ [("value", .text (← Expr.describe setting' _ v'))]) :=
      (describe hsetting hcallee hv).bind fun name name' hname => by
        rw [hname]
        exact fault _ hloc _
    cases hv with
    | closure hf =>
      refine (checkArity hf _ hloc).bind fun _ _ _ => ?_
      exact hall.bind fun args args' hargs => hinvoke _ _ _ _ _ _ hf hargs hloc
    | print =>
      refine (pure trivial : Exec.Alike r q pre (fun _ _ => True) _ _).bind fun _ _ _ =>
        hall.bind fun args args' hargs => ?_
      simp only [Callable.call, Value.Alike.renders hargs]
      exact (writeLine hsetting _).bind fun _ _ _ => pure (.plain trivial)
    | plain hplain =>
      cases v with
      | func f => exact hplain.elim
      | void | int | uint | bool => exact hother

theorem evalAll (hsetting : setting.Alike r setting')
    (hinvoke : Invoke.Alike r q pre invoke invoke')
    (scope : List Nat) : ∀ {es es' : List Expr}, Expr.AlikeAll r q es es' →
    Exec.Alike r q pre (List.Forall₂ (Value.Alike r q)) (Expr.evalAll setting invoke scope es)
      (Expr.evalAll setting' invoke' scope es')
  | _, _, .nil => pure .nil
  | _, _, .cons he hrest => by
    simp only [Expr.evalAll]
    exact (eval hsetting hinvoke scope he).bind fun _ _ hv =>
      (evalAll hsetting hinvoke scope hrest).bind fun _ _ hvs => pure (.cons hv hvs)

end

theorem evalOr (hsetting : setting.Alike r setting') (hinvoke : Invoke.Alike r q pre invoke invoke')
    (scope : List Nat) (default : Value) (hdefault : default.IsPlain) {e e' : Option Expr}
    (he : Option.Rel (Expr.Alike r q) e e') :
    Exec.Alike r q pre (Value.Alike r q) (Expr.evalOr setting invoke scope default e)
      (Expr.evalOr setting' invoke' scope default e') := by
  cases he with
  | none => exact pure (.plain hdefault)
  | some he => exact eval hsetting hinvoke scope he

mutual

theorem exec (hsetting : setting.Alike r setting') (hinvoke : Invoke.Alike r q pre invoke invoke')
    (scope : List Nat) : ∀ {s s' : Stmt}, Stmt.Alike r q s s' →
    Exec.Alike r q pre (Flow.Alike r q) (s.exec setting invoke scope)
      (s'.exec setting' invoke' scope)
  | _, _, .function hid hparams hbody _ _ => by
    simp only [Stmt.exec]
    refine (note hsetting _).bind fun _ _ _ => (nameOf hsetting hid).bind fun name name' hname => ?_
    refine (declare hsetting scope hid .empty (.closure ?_)).bind fun _ _ _ => pure .next
    exact ⟨hname, hparams, rfl, hbody, rfl⟩
  | _, _, .var hid hinit _ => by
    simp only [Stmt.exec]
    refine (note hsetting _).bind fun _ _ _ => ?_
    refine (evalOr hsetting hinvoke scope _ (Value.isPlain_zero _) hinit).bind fun v v' hv => ?_
    exact (declare hsetting scope hid _ hv).bind fun _ _ _ => pure .next
  | _, _, .block hbody _ => by
    simp only [Stmt.exec]
    refine (note hsetting _).bind fun _ _ _ => ?_
    exact inFrame hsetting scope fun scope => execAll hsetting hinvoke scope hbody
  | _, _, .ifThen hcond hbody _ => by
    simp only [Stmt.exec]
    refine (note hsetting _).bind fun _ _ _ => ?_
    refine (eval hsetting hinvoke scope hcond).bind fun v v' hv => ?_
    rw [hv.isTruthy_eq]
    split
    · exact exec hsetting hinvoke scope hbody
    · exact pure .next
  | _, _, .ifElse hcond hbody hother _ => by
    simp only [Stmt.exec]
    refine (note hsetting _).bind fun _ _ _ => ?_
    refine (eval hsetting hinvoke scope hcond).bind fun v v' hv => ?_
    rw [hv.isTruthy_eq]
    split
    · exact exec hsetting hinvoke scope hbody
    · exact exec hsetting hinvoke scope hother
  | _, _, .loop hcond hbody _ => by
    simp only [Stmt.exec, hsetting.budget]
    refine (note hsetting _).bind fun _ _ _ => ?_
    refine whileLoop ?_ (exec hsetting hinvoke scope hbody) setting'.budget
    exact (eval hsetting hinvoke scope hcond).map fun _ _ hv => hv.isTruthy_eq
  | _, _, .returning hvalue _ => by
    simp only [Stmt.exec]
    refine (note hsetting _).bind fun _ _ _ => ?_
    exact (evalOr hsetting hinvoke scope .void trivial hvalue).bind fun _ _ hv =>
      pure (.returned hv)
  | _, _, .expr he _ => by
    simp only [Stmt.exec]
    refine (note hsetting _).bind fun _ _ _ => ?_
    exact (eval hsetting hinvoke scope he).bind fun _ _ _ => pure .next

theorem execAll (hsetting : setting.Alike r setting')
    (hinvoke : Invoke.Alike r q pre invoke invoke')
    (scope : List Nat) : ∀ {ss ss' : List Stmt}, Stmt.AlikeAll r q ss ss' →
    Exec.Alike r q pre (Flow.Alike r q) (Stmt.execAll setting invoke scope ss)
      (Stmt.execAll setting' invoke' scope ss')
  | _, _, .nil => pure .next
  | _, _, .cons hs hrest => by
    simp only [Stmt.execAll]
    refine (exec hsetting hinvoke scope hs).bind fun flow flow' hflow => ?_
    cases hflow with
    | next => exact execAll hsetting hinvoke scope hrest
    | returned hv => exact pure (.returned hv)

end

end

section

variable {setting setting' : Setting}

theorem bindAll (hsetting : setting.Alike r setting') (scope : List Nat)
    {params params' : List Param}
    (hparams : List.Forall₂ (Param.Alike r q) params params') {args args' : List Value}
    (hargs : List.Forall₂ (Value.Alike r q) args args') :
    Exec.Alike r q pre (fun _ _ => True) (Closure.bind scope params args)
      (Closure.bind scope params' args') := by
  induction hparams generalizing args args' with
  | nil => exact pure trivial
  | cons hp _ ih =>
    cases hargs with
    | nil => exact pure trivial
    | cons hv hargs =>
      simp only [Closure.bind, hp.type]
      exact (declare hsetting scope hp.id _ hv).bind fun _ _ _ => ih hargs

theorem resultOf {f f' : Closure} (hf : f.Alike r q f') {flow flow' : Flow}
    (hflow : flow.Alike r q flow') : (f.resultOf flow).Alike r q (f'.resultOf flow') := by
  cases hflow with
  | next =>
    simp only [Closure.resultOf, hf.result]
    split
    · exact .plain trivial
    · exact .plain (Value.isPlain_zero _)
  | returned hv =>
    simp only [Closure.resultOf, hf.result]
    split
    · exact .plain trivial
    · exact hv.narrow _

/-- Functions that are alike are called alike, at every depth of calls. -/
theorem invokeWithin (hsetting : setting.Alike r setting') (room : Nat) :
    Invoke.Alike r q pre (Closure.invokeWithin setting room)
      (Closure.invokeWithin setting' room) := by
  induction room with
  | zero => exact fun _ _ _ _ _ _ _ _ hloc => fault _ hloc _
  | succ room ih =>
    intro f f' args args' loc loc' hf hargs _
    simp only [Closure.invokeWithin, hf.name, hf.scope]
    refine (note hsetting _).bind fun _ _ _ => ?_
    refine (inFrame hsetting _ fun scope => ?_).bind fun _ _ hflow => pure (resultOf hf hflow)
    refine (bindAll hsetting scope hf.params hargs).bind fun _ _ _ => ?_
    refine (note hsetting _).bind fun _ _ _ => ?_
    exact inFrame hsetting scope fun scope => execAll hsetting ih scope hf.body

end

end Exec.Alike

/-- What two runs came to: values that correspond, or the same reason to stop. -/
inductive Halt.Results (q : Location → Location → Prop) {α α' : Type} (R : α → α' → Prop) :
    Except Halt α → Except Halt α' → Prop
  | ok {a : α} {a' : α'} (h : R a a') : Halt.Results q R (.ok a) (.ok a')
  | error {h h' : Halt} (hh : h.Alike q h') : Halt.Results q R (.error h) (.error h')

/-- Runs that cannot be told apart but for ids and places. -/
structure Ran.Alike (r : Int → Int → Prop) (q : Location → Location → Prop) {α α' : Type}
    (R : α → α' → Prop) (a : Ran α) (a' : Ran α') : Prop where
  result : Halt.Results q R a.result a'.result
  output : a.output = a'.output
  trace : a.trace = a'.trace
  frames : Machine.Alike r q .nothing ⟨a.session.frames, "", []⟩ ⟨a'.session.frames, "", []⟩

/-- The result of a run with the machine that it leaves. -/
def Ran.ended {α : Type} (ran : Ran α) : EStateM.Result Halt Machine α :=
  let m : Machine := ⟨ran.session.frames, ran.output, ran.trace.reverse⟩
  match ran.result with
  | .ok a => .ok a m
  | .error h => .error h m

theorem Ran.alike_of_matched {α α' : Type} {R : α → α' → Prop} {ran : Ran α} {ran' : Ran α'}
    (h : Exec.Matched r q .nothing R ran.ended ran'.ended) : ran.Alike r q R ran' := by
  obtain ⟨result, output, trace, session⟩ := ran
  obtain ⟨result', output', trace', session'⟩ := ran'
  have hseen : ∀ hresult : Halt.Results q R result result',
      Machine.Alike r q .nothing ⟨session.frames, output, trace.reverse⟩
        ⟨session'.frames, output', trace'.reverse⟩ →
      Ran.Alike r q R ⟨result, output, trace, session⟩ ⟨result', output', trace', session'⟩ := by
    intro hresult hm
    obtain ⟨houtput, hevents⟩ := hm.told_eq
    exact ⟨hresult, houtput, List.reverse_injective hevents, hm.size, hm.frames, rfl, rfl⟩
  unfold Ran.ended at h
  cases result with
  | ok a =>
    cases result' with
    | ok a' =>
      cases h with
      | ok ha hm => exact hseen (.ok ha) hm
    | error halt' => cases h
  | error halt =>
    cases result' with
    | ok a' => cases h
    | error halt' =>
      cases h with
      | error hh hm => exact hseen (.error hh) hm

theorem Halt.Results.eq {α : Type} {x x' : Except Halt α} (h : Halt.Results Eq Eq x x') :
    x = x' := by
  cases h with
  | ok h => rw [h]
  | error hh =>
    cases hh with
    | @fault d d' hd =>
      obtain ⟨code, loc, args⟩ := d
      obtain ⟨code', loc', args'⟩ := d'
      obtain ⟨rfl, rfl, rfl⟩ := hd
      rfl
    | refused | breach | exhausted => rfl

namespace Session

variable {table table' : SymbolTable}

theorem ended_perform {α : Type} (s : Session) (p : Exec α) :
    (s.perform p).ended = p ⟨s.frames, "", []⟩ := by
  unfold perform Ran.ended
  split <;> simp_all

theorem alike_perform {s s' : Session} {α α' : Type} {R : α → α' → Prop} {p : Exec α}
    {p' : Exec α'} (hp : Exec.Alike r q .nothing R p p')
    (hs : Machine.Alike r q .nothing ⟨s.frames, "", []⟩ ⟨s'.frames, "", []⟩) :
    (s.perform p).Alike r q R (s'.perform p') := by
  apply Ran.alike_of_matched
  rw [ended_perform, ended_perform]
  exact hp _ _ hs

/-- In new sessions `print` is declared under its id in each table. -/
theorem alike_start (table table' : SymbolTable) :
    Machine.Alike ((start table).table.SameName (start table').table) q .nothing
      ⟨(start table).frames, "", []⟩ ⟨(start table').frames, "", []⟩ := by
  refine ⟨rfl, fun i => ?_, rfl, rfl⟩
  cases i with
  | zero => exact .cons ⟨SymbolTable.sameName_add _ _ _ _, .print, rfl⟩ .nil
  | succ i => exact .nil

theorem distinct_start (h : table.Distinct) : (start table).table.Distinct := h.add _ _

theorem alike_setting {s s' : Session} (hs : s.table.Distinct) (hs' : s'.table.Distinct)
    (options : RunOptions) :
    (s.setting options).Alike (s.table.SameName s'.table) (s'.setting options) :=
  ⟨SymbolTable.SameName.eq_iff hs hs', id, rfl, rfl, rfl⟩

/-- Programs that are alike by the names in their tables run alike. -/
theorem alike_run {s s' : Session} (hs : s.table.Distinct) (hs' : s'.table.Distinct)
    (options : RunOptions) {p p' : Program}
    (hp : Stmt.AlikeAll (s.table.SameName s'.table) q p.body p'.body) :
    (s.run options p).Alike ((start s.table).table.SameName (start s'.table).table) q Eq
      (s'.run options p') := by
  have hkeeps := s.table.keeps_add "print" .empty
  have hkeeps' := s'.table.keeps_add "print" .empty
  have hbody := hp.widen fun a b h => h.mono hkeeps hkeeps'
  have hsetting := alike_setting (distinct_start hs) (distinct_start hs') options
  rw [run_eq, run_eq]
  refine alike_perform (.bind (.execAll hsetting (.invokeWithin hsetting maxCalls) scope hbody)
    fun flow flow' hflow => ?_) (alike_start s.table s'.table)
  cases hflow with
  | next => exact .pure rfl
  | returned hv => exact .pure hv.exitCode_eq

end Session

end Ember
