import Ember.Proofs.Fold.Run
import Ember.Proofs.Run.Leads
import Ember.Proofs.Sound.Checked
import Ember.Proofs.Sound.Tree

namespace Ember

open Exec

/-- A function has a valid body and was declared in frames that are there. -/
structure Closure.Sound (table : SymbolTable) (size : Nat) (f : Closure) : Prop where
  scope : ∀ frame ∈ f.scope, frame < size
  body : ∀ s ∈ f.body, s.Valid table

/-- A value that is a function is a sound one. -/
def Value.Sound (table : SymbolTable) (size : Nat) (v : Value) : Prop :=
  ∀ f, v = .func (.closure f) → f.Sound table size

def Flow.Sound (table : SymbolTable) (size : Nat) (flow : Flow) : Prop :=
  ∀ v, flow = .returned v → v.Sound table size

/-- Every value that the machine holds is sound. -/
def Machine.Sound (table : SymbolTable) (m : Machine) : Prop :=
  ∀ f ∈ m.frames, f.All (Value.Sound table m.frames.size)

section

variable {table table' : SymbolTable} {size size' : Nat}

theorem Closure.Sound.mono {f : Closure} (h : f.Sound table size) (hkeeps : table.Keeps table')
    (hsize : size ≤ size') : f.Sound table' size' :=
  ⟨fun frame hframe => Nat.lt_of_lt_of_le (h.scope frame hframe) hsize,
    fun s hs => (h.body s hs).mono hkeeps⟩

namespace Value

theorem Sound.mono {v : Value} (h : v.Sound table size) (hsize : size ≤ size') :
    v.Sound table size' := fun f hf => (h f hf).mono (.refl table) hsize

/-- What is no function of the program. -/
theorem sound_of_isPlain {v : Value} (h : v.IsPlain) : v.Sound table size := by
  rintro f rfl
  exact h.elim

theorem Sound.narrow {v : Value} (h : v.Sound table size) (type : Datatype) :
    (v.narrow type).Sound table size := by
  obtain ⟨hfunc, hplain⟩ := narrow_eq_or_isPlain type v
  cases v with
  | func f => rwa [hfunc f rfl]
  | void | int | uint | bool => exact sound_of_isPlain (hplain trivial)

end Value

theorem Closure.sound_resultOf (f : Closure) {flow : Flow} (h : flow.Sound table size) :
    (f.resultOf flow).Sound table size := by
  cases flow with
  | next =>
    simp only [resultOf]
    split
    · exact Value.sound_of_isPlain trivial
    · exact Value.sound_of_isPlain (Value.isPlain_zero _)
  | returned v =>
    simp only [resultOf]
    split
    · exact Value.sound_of_isPlain trivial
    · exact (h v rfl).narrow _

namespace Machine.Sound

variable {m : Machine}

theorem congr {m' : Machine} (h : m.Sound table) (hframes : m'.frames = m.frames) :
    m'.Sound table := by
  unfold Machine.Sound
  rw [hframes]
  exact h

theorem push (h : m.Sound table) : Machine.Sound table { m with frames := m.frames.push [] } := by
  intro f hf
  rcases Array.mem_push.1 hf with hf | rfl
  · intro e he
    exact (h f hf e he).mono (by simp)
  · exact List.forall_mem_nil _

theorem modify (h : m.Sound table) (i : Nat) {g : Frame → Frame}
    (hg : ∀ f : Frame, f.All (Value.Sound table m.frames.size) →
      (g f).All (Value.Sound table m.frames.size)) :
    Machine.Sound table { m with frames := m.frames.modify i g } := by
  unfold Machine.Sound
  rw [Array.size_modify]
  exact forall_modify h i hg

theorem findIn (h : m.Sound table) {id : Int} {scope : List Nat} {x : Nat × Binding}
    (hfind : Exec.findIn m.frames id scope = some x) :
    x.1 ∈ scope ∧ x.2.value.Sound table m.frames.size := by
  induction scope with
  | nil => cases hfind
  | cons frame rest ih =>
    rw [Exec.findIn] at hfind
    split at hfind
    · rename_i b hb
      cases hfind
      exact ⟨List.mem_cons_self, (forall_getD h (List.forall_mem_nil _) frame).find? hb⟩
    · obtain ⟨hmem, hvalue⟩ := ih hfind
      exact ⟨List.mem_cons_of_mem _ hmem, hvalue⟩

end Machine.Sound

end

namespace Exec

variable {α β : Type} {setting : Setting} {size : Nat}

/-- The computation leaves no fewer frames and a sound machine, and a good result, or it stops for
another reason than a breach. -/
def Keeps (setting : Setting) (good : Nat → α → Prop) (m : Machine) :
    EStateM.Result Halt Machine α → Prop
  | .ok a m' =>
    m.frames.size ≤ m'.frames.size ∧ m'.Sound setting.table ∧ good m'.frames.size a
  | .error h m' =>
    m.frames.size ≤ m'.frames.size ∧ m'.Sound setting.table ∧ ∀ message, h ≠ .breach message

/-- From a sound machine with `size` frames or more, the computation `p` with every access checked
does what `q` does, and a sound machine is left. -/
def Checks (setting : Setting) (size : Nat) (good : Nat → α → Prop) (p q : Exec α) : Prop :=
  ∀ m : Machine, size ≤ m.frames.size → m.Sound setting.table →
    p m = q m ∧ Keeps setting good m (q m)

namespace Checks

variable {good : Nat → α → Prop} {good' : Nat → β → Prop} {p q : Exec α}

theorem mono {size' : Nat} (h : Checks setting size good p q) (hsize : size ≤ size') :
    Checks setting size' good p q := fun m hm hsound => h m (Nat.le_trans hsize hm) hsound

theorem pure {a : α} (h : ∀ n, size ≤ n → good n a) :
    Checks setting size good (Pure.pure a) (Pure.pure a) :=
  fun _ hm hsound => ⟨rfl, Nat.le_refl _, hsound, h _ hm⟩

theorem throw {h : Halt} (hh : ∀ message, h ≠ .breach message) :
    Checks setting size good (MonadExcept.throw h) (MonadExcept.throw h) :=
  fun _ _ hsound => ⟨rfl, Nat.le_refl _, hsound, hh⟩

theorem fault (code : Code) (loc : Location) (args : List (String × Argument)) :
    Checks setting size good (Exec.fault code loc args) (Exec.fault code loc args) := throw nofun

theorem bind {k k' : α → Exec β} (hp : Checks setting size good p q)
    (hk : ∀ n a, size ≤ n → good n a → Checks setting n good' (k a) (k' a)) :
    Checks setting size good' (p >>= k) (q >>= k') := by
  intro m hm hsound
  obtain ⟨heq, hkeeps⟩ := hp m hm hsound
  cases hq : q m with
  | ok a m' =>
    rw [hq] at heq hkeeps
    obtain ⟨hgrows, hsound', ha⟩ := hkeeps
    obtain ⟨heq', hkeeps'⟩ := hk _ a (Nat.le_trans hm hgrows) ha m' (Nat.le_refl _) hsound'
    simp only [Bind.bind, EStateM.bind, heq, hq]
    refine ⟨heq', ?_⟩
    cases hk' : k' a m' with
    | ok b m'' =>
      rw [hk'] at hkeeps'
      exact ⟨Nat.le_trans hgrows hkeeps'.1, hkeeps'.2⟩
    | error h m'' =>
      rw [hk'] at hkeeps'
      exact ⟨Nat.le_trans hgrows hkeeps'.1, hkeeps'.2⟩
  | error h m' =>
    rw [hq] at heq hkeeps
    simp only [Bind.bind, EStateM.bind, heq, hq]
    exact ⟨trivial, hkeeps⟩

theorem map {f : α → β} (hp : Checks setting size good p q)
    (hf : ∀ n a, good n a → ∀ n', n ≤ n' → good' n' (f a)) :
    Checks setting size good' (f <$> p) (f <$> q) := by
  rw [map_eq_pure_bind, map_eq_pure_bind]
  exact hp.bind fun n a _ ha => pure (hf n a ha)

/-- Nothing but the machine changes. -/
theorem of_run {f : Machine → Machine} {a : α} (hrun : ∀ m, q m = .ok a (f m))
    (hsize : ∀ m, (f m).frames.size = m.frames.size)
    (hf : ∀ m : Machine, size ≤ m.frames.size → m.Sound setting.table →
      (f m).Sound setting.table ∧ good m.frames.size a) : Checks setting size good q q := by
  intro m hm hsound
  rw [hrun]
  obtain ⟨hsound', ha⟩ := hf m hm hsound
  refine ⟨rfl, Nat.le_of_eq (hsize m).symm, hsound', ?_⟩
  rwa [hsize]

theorem note (e : Event) :
    Checks setting size (fun _ _ => True) (Exec.note setting e) (Exec.note setting e) := by
  unfold Exec.note
  split
  · exact of_run (fun _ => rfl) (fun _ => rfl) fun _ _ h => ⟨h.congr rfl, trivial⟩
  · exact pure fun _ _ => trivial

theorem nameOf {id : Int} (hid : (setting.table.get? id).isSome) :
    Checks setting size (fun _ _ => True) (Exec.nameOf setting id) (Exec.nameOf setting id) := by
  obtain ⟨symbol, hget⟩ := Option.isSome_iff_exists.1 hid
  simp only [Exec.nameOf, SymbolTable.lookup, hget]
  exact pure fun _ _ => trivial

theorem writeLine (text : String) :
    Checks setting size (fun _ _ => True) (Exec.writeLine setting text)
      (Exec.writeLine setting text) := by
  unfold Exec.writeLine
  split
  · exact throw nofun
  · exact of_run (fun _ => rfl) (fun _ => rfl) fun _ _ h => ⟨h.congr rfl, trivial⟩

/-- Frames that are there pass the check. -/
theorem checkFrames_run {scope : List Nat} (hscope : ∀ frame ∈ scope, frame < size) {m : Machine}
    (hm : size ≤ m.frames.size) : checkFrames scope m = .ok () m := by
  have hall : scope.all (· < m.frames.size) = true :=
    List.all_eq_true.2 fun frame hframe =>
      decide_eq_true (Nat.lt_of_lt_of_le (hscope frame hframe) hm)
  change (if scope.all (· < m.frames.size) then Pure.pure () else
    MonadExcept.throw outOfRange : Exec Unit) m = _
  rw [if_pos hall]
  rfl

/-- What is done once frames that are there have passed the check. -/
theorem checked {scope : List Nat} (hscope : ∀ frame ∈ scope, frame < size)
    (hq : Checks setting size good q q) :
    Checks setting size good (do checkFrames scope; q) q := by
  intro m hm hsound
  refine ⟨?_, (hq m hm hsound).2⟩
  simp only [Bind.bind, EStateM.bind, checkFrames_run hscope hm]

theorem lookup {scope : List Nat} (hscope : ∀ frame ∈ scope, frame < size) {id : Int}
    (hid : (setting.table.get? id).isSome) (loc : Location) :
    Checks setting size (fun n x => x.1 < n ∧ x.2.value.Sound setting.table n)
      (checkedLookup setting scope id loc) (Exec.lookup setting scope id loc) := by
  refine checked hscope fun m hm hsound => ⟨rfl, ?_⟩
  rw [Folds.lookup_eq]
  cases hfind : findIn m.frames id scope with
  | some x =>
    obtain ⟨hmem, hvalue⟩ := hsound.findIn hfind
    exact ⟨Nat.le_refl _, hsound, Nat.lt_of_lt_of_le (hscope _ hmem) hm, hvalue⟩
  | none =>
    have hmiss : Checks setting size (fun n (x : Nat × Binding) =>
        x.1 < n ∧ x.2.value.Sound setting.table n)
        (do Exec.fault .undefinedVariable loc [("name", .text (← Exec.nameOf setting id))])
        (do Exec.fault .undefinedVariable loc [("name", .text (← Exec.nameOf setting id))]) :=
      (nameOf hid).bind fun _ _ _ _ => fault _ _ _
    exact (hmiss m hm hsound).2

theorem declare {frame : Nat} (hframe : frame < size) (rest : List Nat) (id : Int)
    (type : Datatype) {v : Value} (hv : v.Sound setting.table size) :
    Checks setting size (fun _ _ => True) (checkedDeclare (frame :: rest) id type v)
      (Exec.declare (frame :: rest) id type v) := by
  refine checked (List.forall_mem_singleton.2 hframe) ?_
  refine of_run (fun _ => rfl) (fun m => by simp) fun m hm hsound => ⟨?_, trivial⟩
  exact hsound.modify frame fun f hf => hf.declare id ((hv.mono hm).narrow type)

theorem assign {frame : Nat} (hframe : frame < size) (id : Int) {v : Value}
    (hv : v.Sound setting.table size) :
    Checks setting size (fun _ _ => True) (checkedAssign frame id v) (Exec.assign frame id v) := by
  refine checked (List.forall_mem_singleton.2 hframe) ?_
  refine of_run (fun _ => rfl) (fun m => by simp) fun m hm hsound => ⟨?_, trivial⟩
  exact hsound.modify frame fun f hf => hf.assign id (hv.mono hm)

/-- What runs in a new frame. -/
theorem inFrame {scope : List Nat} {body body' : List Nat → Exec α}
    (hbody : ∀ n frame, size ≤ n → frame < n →
      Checks setting n good (body (frame :: scope)) (body' (frame :: scope))) :
    Checks setting size good (Exec.inFrame setting scope body)
      (Exec.inFrame setting scope body') := by
  intro m hm hsound
  have hopened : (m.opened setting).Sound setting.table := hsound.push.congr rfl
  have hsize : (m.opened setting).frames.size = m.frames.size + 1 := Array.size_push ..
  obtain ⟨heq, hkeeps⟩ :=
    hbody _ m.frames.size (by omega) (by omega) _ (Nat.le_of_eq hsize.symm) hopened
  rw [inFrame_run, inFrame_run, heq]
  cases hrun : body' (m.frames.size :: scope) (m.opened setting) with
  | ok a m' =>
    rw [hrun] at hkeeps
    obtain ⟨hgrows, hsound', ha⟩ := hkeeps
    refine ⟨rfl, ?_, hsound'.congr (m'.frames_tell setting .pop), ?_⟩
    · rw [m'.frames_tell]
      omega
    · rwa [m'.frames_tell]
  | error h m' =>
    rw [hrun] at hkeeps
    obtain ⟨hgrows, hsound', hh⟩ := hkeeps
    refine ⟨rfl, ?_, hsound'.congr (m'.frames_tell setting .pop), hh⟩
    rw [m'.frames_tell]
    omega

theorem whileLoop {test test' : Exec Bool} {body body' : Exec Flow}
    (htest : Checks setting size (fun _ _ => True) test test')
    (hbody : Checks setting size (Flow.Sound setting.table) body body') (rounds : Nat) :
    Checks setting size (Flow.Sound setting.table) (Exec.whileLoop test body rounds)
      (Exec.whileLoop test' body' rounds) := by
  induction rounds with
  | zero => exact throw nofun
  | succ rounds ih =>
    refine htest.bind fun n holds hn _ => ?_
    cases holds with
    | false => exact pure fun _ _ _ => nofun
    | true =>
      refine (hbody.mono hn).bind fun n' flow hn' hflow => ?_
      cases flow with
      | next => exact ih.mono (Nat.le_trans hn hn')
      | returned v =>
        refine pure fun n'' hn'' w hw => ?_
        exact (hflow w hw).mono hn''

theorem unary (op : UnaryOp) (v : Value) (loc : Location) :
    Checks setting size (Value.Sound setting.table) (Value.unary op v loc)
      (Value.unary op v loc) := by
  unfold Value.unary
  split
  · exact pure fun _ _ => Value.sound_of_isPlain trivial
  · split
    · rename_i hvalue
      exact pure fun _ _ => Value.sound_of_isPlain (Value.isPlain_negate? hvalue)
    · exact fault _ _ _

/-- An operator of the language is never unknown. -/
theorem binary {op : BinaryOp} (hop : ∀ code, op ≠ .unknown code) (v w : Value) (loc : Location) :
    Checks setting size (Value.Sound setting.table) (Value.binary op v w loc)
      (Value.binary op v w loc) := by
  unfold Value.binary
  split
  · rename_i a b _ _
    split
    · exact fault _ _ _
    · let result := if v.isUnsigned || w.isUnsigned then
        Value.unsigned? op a.toUInt64 b.toUInt64 else Value.signed? op a b
      have hsome : result ≠ none := by
        simp only [result]
        cases op with
        | unknown code => exact absurd rfl (hop code)
        | add | sub | mul | div | mod | eq | ne | lt | gt | le | ge => split <;> nofun
      dsimp only
      split
      · rename_i hx
        exact pure fun _ _ => Value.sound_of_isPlain (Value.isPlain_of_operation hx)
      · exact absurd ‹_› hsome
      · exact absurd ‹_› hsome
  · exact fault _ _ _

theorem checkArity (f : Callable) (actual : Nat) (loc : Location) :
    Checks setting size (fun _ _ => ∀ expected ∈ f.arity?, expected = actual)
      (f.checkArity actual loc) (f.checkArity actual loc) := by
  unfold Callable.checkArity
  cases f.arity? with
  | none => exact pure fun _ _ => nofun
  | some expected =>
    by_cases heq : expected = actual
    · simp only [heq, if_true]
      refine pure fun _ _ => ?_
      rintro _ ⟨⟩
      rfl
    · simp only [heq, if_false]
      exact fault _ _ _

theorem describe {callee : Expr} (hcallee : callee.Valid setting.table) (v : Value) :
    Checks setting size (fun _ _ => True) (callee.describe setting v)
      (callee.describe setting v) := by
  have hcallee := hcallee.unparen
  unfold Expr.describe
  split
  · rename_i id _ hunparen
    rw [hunparen] at hcallee
    exact nameOf (hcallee.1.entered id rfl)
  · exact pure fun _ _ => trivial

end Checks

end Exec

/-- A way to call functions with every access checked, beside one without. Functions are called with
as many arguments as they have parameters. -/
def Invoke.Checks (setting : Setting) (invoke invoke' : Invoke) : Prop :=
  ∀ (size : Nat) (f : Closure) (args : List Value) (loc : Location), f.Sound setting.table size →
    f.params.length = args.length → (∀ v ∈ args, v.Sound setting.table size) →
    Exec.Checks setting size (Value.Sound setting.table) (invoke f args loc) (invoke' f args loc)

namespace Exec.Checks

variable {setting : Setting} {invoke invoke' : Invoke} {scope : List Nat} {size : Nat}

theorem call (hinvoke : Invoke.Checks setting invoke invoke') {f : Callable}
    (hf : Value.Sound setting.table size (.func f)) {args : List Value}
    (harity : ∀ expected ∈ f.arity?, expected = args.length)
    (hargs : ∀ v ∈ args, v.Sound setting.table size) (loc : Location) :
    Checks setting size (Value.Sound setting.table) (f.call setting invoke args loc)
      (f.call setting invoke' args loc) := by
  cases f with
  | closure f => exact hinvoke size f args loc (hf f rfl) (harity _ rfl) hargs
  | print => exact (writeLine _).bind fun _ _ _ _ => pure fun _ _ => Value.sound_of_isPlain trivial

mutual

/-- A valid expression is evaluated without a breach. -/
theorem eval (hinvoke : Invoke.Checks setting invoke invoke')
    (hscope : ∀ frame ∈ scope, frame < size) : (e : Expr) → e.Valid setting.table →
    Checks setting size (Value.Sound setting.table) (e.checkedEval setting invoke scope)
      (e.eval setting invoke' scope)
  | .literal value _, _ => by
    simp only [Expr.checkedEval, Expr.eval]
    exact pure fun _ _ => Value.sound_of_isPlain (Value.isPlain_ofLiteral value)
  | .var id loc, h => by
    simp only [Expr.checkedEval, Expr.eval]
    exact (lookup hscope (h.1.entered id rfl) loc).bind fun _ _ _ hx =>
      pure fun _ hn => hx.2.mono hn
  | .group inner _, h => by
    simp only [Expr.checkedEval, Expr.eval]
    exact eval hinvoke hscope inner h.2.1
  | .assign target value _, h => by
    have htarget : target.unparen.Valid setting.table := Expr.Valid.unparen (e := target) h.2.1
    simp only [Expr.checkedEval, Expr.eval]
    cases hunparen : target.unparen with
    | var id loc =>
      rw [hunparen] at htarget
      refine (lookup hscope (htarget.1.entered id rfl) loc).bind fun n x hn hx => ?_
      have hvalue := (eval hinvoke hscope value h.2.2.1).mono hn
      refine hvalue.bind fun n' v hn' hv => ?_
      refine (assign (Nat.lt_of_lt_of_le hx.1 hn') id (hv.narrow _)).bind fun n'' _ hn'' _ => ?_
      exact pure fun _ hn => (hv.narrow _).mono (Nat.le_trans hn'' hn)
    | literal | group | assign | unary | binary | call => exact fault _ _ _
  | .unary op operand loc, h => by
    simp only [Expr.checkedEval, Expr.eval]
    exact (eval hinvoke hscope operand h.2.1).bind fun _ v _ _ => unary op v loc
  | .binary op left right loc, h => by
    have hop : ∀ code, op ≠ .unknown code := fun code heq => h.1.known code (congrArg _ heq)
    simp only [Expr.checkedEval, Expr.eval]
    refine (eval hinvoke hscope left h.2.1).bind fun n a hn _ => ?_
    have hright := (eval hinvoke hscope right h.2.2.1).mono hn
    exact hright.bind fun _ b _ _ => binary hop a b loc
  | .call callee args loc, h => by
    simp only [Expr.checkedEval, Expr.eval]
    refine (eval hinvoke hscope callee h.2.1).bind fun n v hn hv => ?_
    cases v with
    | func f =>
      refine (checkArity f args.length loc).bind fun n' _ hn' harity => ?_
      have hargs := (evalAll hinvoke hscope args h.2.2).mono (Nat.le_trans hn hn')
      refine hargs.bind fun n'' values hn'' hvalues => ?_
      refine call hinvoke (hv.mono (Nat.le_trans hn' hn'')) ?_ hvalues.2 loc
      rwa [hvalues.1]
    | void | int | uint | bool => exact (describe h.2.1 _).bind fun _ _ _ _ => fault _ _ _

theorem evalAll (hinvoke : Invoke.Checks setting invoke invoke')
    (hscope : ∀ frame ∈ scope, frame < size) : (es : List Expr) →
    Outline.AllIn (fun h _ => h.Valid setting.table) (Expr.outlines es) →
    Checks setting size
      (fun n values => values.length = es.length ∧ ∀ v ∈ values, v.Sound setting.table n)
      (Expr.checkedEvalAll setting invoke scope es) (Expr.evalAll setting invoke' scope es)
  | [], _ => by
    simp only [Expr.checkedEvalAll, Expr.evalAll]
    exact pure fun _ _ => ⟨rfl, List.forall_mem_nil _⟩
  | e :: rest, h => by
    simp only [Expr.checkedEvalAll, Expr.evalAll]
    refine (eval hinvoke hscope e h.1).bind fun n v hn hv => ?_
    have hrest := (evalAll hinvoke hscope rest h.2).mono hn
    refine hrest.bind fun n' values hn' hvalues => pure fun n'' hn'' => ?_
    refine ⟨congrArg (· + 1) hvalues.1,
      List.forall_mem_cons.2 ⟨hv.mono (Nat.le_trans hn' hn''), ?_⟩⟩
    exact fun w hw => (hvalues.2 w hw).mono hn''

end

theorem evalOr (hinvoke : Invoke.Checks setting invoke invoke')
    (hscope : ∀ frame ∈ scope, frame < size) {default : Value} (hdefault : default.IsPlain)
    {e : Option Expr}
    (h : Outline.AllIn (fun h _ => h.Valid setting.table) (e.map Expr.outline).toList) :
    Checks setting size (Value.Sound setting.table)
      (Expr.checkedEvalOr setting invoke scope default e)
      (Expr.evalOr setting invoke' scope default e) := by
  cases e with
  | none => exact pure fun _ _ => Value.sound_of_isPlain hdefault
  | some e => exact eval hinvoke hscope e h.1

/-- What goes on to the next statement. -/
theorem next : Checks setting size (Flow.Sound setting.table) (Pure.pure .next)
    (Pure.pure .next) := pure fun _ _ _ => nofun

theorem returning (v : Value) (hv : v.Sound setting.table size) :
    Checks setting size (Flow.Sound setting.table) (Pure.pure (.returned v))
      (Pure.pure (.returned v)) := by
  refine pure fun n hn w hw => ?_
  cases hw
  exact hv.mono hn

mutual

/-- A valid statement runs without a breach. -/
theorem exec (hinvoke : Invoke.Checks setting invoke invoke') {size frame : Nat} {outer : List Nat}
    (hscope : ∀ x ∈ frame :: outer, x < size) : (s : Stmt) → s.Valid setting.table →
    Checks setting size (Flow.Sound setting.table)
      (s.checkedExec setting invoke (frame :: outer)) (s.exec setting invoke' (frame :: outer))
  | .function id params result body _ _, h => by
    obtain ⟨hid, _, _, hbody⟩ := Stmt.all_function.1 h
    simp only [Stmt.checkedExec, Stmt.exec]
    refine (note _).bind fun n _ hn _ => (nameOf (hid.entered id rfl)).bind fun n' name hn' _ => ?_
    have hle := Nat.le_trans hn hn'
    have hlt : ∀ x ∈ frame :: outer, x < n' := fun x hx => Nat.lt_of_lt_of_le (hscope x hx) hle
    refine (declare (hlt frame List.mem_cons_self) outer id .empty ?_).bind fun _ _ _ _ => next
    rintro _ ⟨⟩
    exact ⟨hlt, hbody⟩
  | .var id type init _, h => by
    simp only [Stmt.checkedExec, Stmt.exec]
    refine (note _).bind fun n _ hn _ => ?_
    have hinit := (evalOr hinvoke hscope (Value.isPlain_zero type) h.2).mono hn
    refine hinit.bind fun n' v hn' hv => ?_
    have hlt := Nat.lt_of_lt_of_le (hscope frame List.mem_cons_self) (Nat.le_trans hn hn')
    exact (declare hlt outer id type hv).bind fun _ _ _ _ => next
  | .block body _, h => by
    simp only [Stmt.checkedExec, Stmt.exec]
    refine (note _).bind fun n _ hn _ => inFrame fun n' inner hn' hinner => ?_
    have hscope' : ∀ x ∈ inner :: frame :: outer, x < n' := List.forall_mem_cons.2
      ⟨hinner, fun x hx => Nat.lt_of_lt_of_le (hscope x hx) (Nat.le_trans hn hn')⟩
    exact execAll hinvoke hscope' body h.2
  | .conditional cond body none _, h => by
    simp only [Stmt.checkedExec, Stmt.exec]
    refine (note _).bind fun n _ hn _ => ?_
    refine ((eval hinvoke hscope cond h.2.1).mono hn).bind fun n' v hn' _ => ?_
    split
    · exact (exec hinvoke hscope body h.2.2.1).mono (Nat.le_trans hn hn')
    · exact next
  | .conditional cond body (some other) _, h => by
    simp only [Stmt.checkedExec, Stmt.exec]
    refine (note _).bind fun n _ hn _ => ?_
    refine ((eval hinvoke hscope cond h.2.1).mono hn).bind fun n' v hn' _ => ?_
    split
    · exact (exec hinvoke hscope body h.2.2.1).mono (Nat.le_trans hn hn')
    · exact (exec hinvoke hscope other h.2.2.2.1).mono (Nat.le_trans hn hn')
  | .loop cond body _, h => by
    simp only [Stmt.checkedExec, Stmt.exec]
    refine (note _).bind fun n _ hn _ => ?_
    have htest : Checks setting size (fun _ _ => True)
        (Value.isTruthy <$> cond.checkedEval setting invoke (frame :: outer))
        (Value.isTruthy <$> cond.eval setting invoke' (frame :: outer)) :=
      (eval hinvoke hscope cond h.2.1).map fun _ _ _ _ _ => trivial
    exact (whileLoop htest (exec hinvoke hscope body h.2.2.1) _).mono hn
  | .returning value _, h => by
    simp only [Stmt.checkedExec, Stmt.exec]
    refine (note _).bind fun n _ hn _ => ?_
    have hvoid : Value.void.IsPlain := trivial
    have hvalue := (evalOr hinvoke hscope hvoid h.2).mono hn
    exact hvalue.bind fun _ v _ hv => returning v hv
  | .expr e _, h => by
    simp only [Stmt.checkedExec, Stmt.exec]
    refine (note _).bind fun n _ hn _ => ?_
    exact ((eval hinvoke hscope e h.2.1).mono hn).bind fun _ _ _ _ => next

theorem execAll (hinvoke : Invoke.Checks setting invoke invoke') {size frame : Nat}
    {outer : List Nat} (hscope : ∀ x ∈ frame :: outer, x < size) : (ss : List Stmt) →
    Outline.AllIn (fun h _ => h.Valid setting.table) (Stmt.outlines ss) →
    Checks setting size (Flow.Sound setting.table)
      (Stmt.checkedExecAll setting invoke (frame :: outer) ss)
      (Stmt.execAll setting invoke' (frame :: outer) ss)
  | [], _ => by
    simp only [Stmt.checkedExecAll, Stmt.execAll]
    exact next
  | s :: rest, h => by
    simp only [Stmt.checkedExecAll, Stmt.execAll]
    refine (exec hinvoke hscope s h.1).bind fun n flow hn hflow => ?_
    cases flow with
    | next => exact (execAll hinvoke hscope rest h.2).mono hn
    | returned v => exact returning v (hflow v rfl)

end

end Exec.Checks

namespace Closure

/-- As many arguments as there are parameters are bound. -/
theorem checks_bind {setting : Setting} {size frame : Nat} (hframe : frame < size)
    (outer : List Nat) {params : List Param} {args : List Value}
    (harity : params.length = args.length) (hargs : ∀ v ∈ args, v.Sound setting.table size) :
    Checks setting size (fun _ _ => True) (checkedBind (frame :: outer) params args)
      (bind (frame :: outer) params args) := by
  induction params generalizing size args with
  | nil =>
    simp only [checkedBind, bind]
    exact .pure fun _ _ => trivial
  | cons p params ih =>
    cases args with
    | nil => cases harity
    | cons v args =>
      obtain ⟨hv, hargs⟩ := List.forall_mem_cons.1 hargs
      simp only [checkedBind, bind]
      refine (Checks.declare hframe outer p.id p.type hv).bind fun n _ hn _ => ?_
      refine ih (Nat.lt_of_lt_of_le hframe hn) (Nat.succ.inj harity) fun w hw => ?_
      exact (hargs w hw).mono hn

theorem checks_invokeWithin (setting : Setting) (room : Nat) :
    Invoke.Checks setting (checkedInvokeWithin setting room) (invokeWithin setting room) := by
  induction room with
  | zero => exact fun _ _ _ _ _ _ _ => Checks.fault _ _ _
  | succ room ih =>
    intro size f args loc hf harity hargs
    simp only [checkedInvokeWithin, invokeWithin]
    refine (Checks.note _).bind fun n _ hn _ => ?_
    have hbody : Checks setting n (Flow.Sound setting.table)
        (inFrame setting f.scope fun scope => do
          checkedBind scope f.params args
          Exec.note setting (.exec .block)
          inFrame setting scope fun scope =>
            Stmt.checkedExecAll setting (checkedInvokeWithin setting room) scope f.body)
        (inFrame setting f.scope fun scope => do
          bind scope f.params args
          Exec.note setting (.exec .block)
          inFrame setting scope fun scope =>
            Stmt.execAll setting (invokeWithin setting room) scope f.body) := by
      refine Checks.inFrame fun n₁ frame hn₁ hframe => ?_
      have hle₁ := Nat.le_trans hn hn₁
      have hargs₁ : ∀ v ∈ args, v.Sound setting.table n₁ := fun v hv => (hargs v hv).mono hle₁
      refine (checks_bind hframe f.scope harity hargs₁).bind fun n₂ _ hn₂ _ => ?_
      refine (Checks.note _).bind fun n₃ _ hn₃ _ => Checks.inFrame fun n₄ inner hn₄ hinner => ?_
      have hle₂ := Nat.le_trans hn₂ (Nat.le_trans hn₃ hn₄)
      refine Checks.execAll ih ?_ f.body (Stmt.allIn_outlines.2 hf.body)
      refine List.forall_mem_cons.2 ⟨hinner, List.forall_mem_cons.2 ⟨?_, fun x hx => ?_⟩⟩
      · exact Nat.lt_of_lt_of_le hframe hle₂
      · exact Nat.lt_of_lt_of_le (hf.scope x hx) (Nat.le_trans hle₁ hle₂)
    refine hbody.bind fun n' flow hn' hflow => Checks.pure fun n'' hn'' => ?_
    exact (f.sound_resultOf hflow).mono hn''

theorem checks_invoke (setting : Setting) :
    Invoke.Checks setting (checkedInvoke setting) (invoke setting) :=
  checks_invokeWithin setting maxCalls

end Closure

end Ember
