import Ember.Proofs.Fold.Machine
import Ember.Proofs.Naming.Parser

namespace Ember

/-- What a machine has printed and told so far; the events are the latest first. -/
structure Earlier where
  output : String
  events : List Event

def Earlier.nothing : Earlier := ⟨"", []⟩

section

variable (r : Int → Int → Prop) (q : Location → Location → Prop)

structure Closure.Alike (f f' : Closure) : Prop where
  name : f.name = f'.name
  params : List.Forall₂ (Param.Alike r q) f.params f'.params
  result : f.result = f'.result
  body : Stmt.AlikeAll r q f.body f'.body
  scope : f.scope = f'.scope

inductive Value.Alike : Value → Value → Prop
  | plain {v : Value} (h : v.IsPlain) : Value.Alike v v
  | print : Value.Alike (.func .print) (.func .print)
  | closure {f f' : Closure} (h : f.Alike r q f') :
    Value.Alike (.func (.closure f)) (.func (.closure f'))

inductive Flow.Alike : Flow → Flow → Prop
  | next : Flow.Alike .next .next
  | returned {v v' : Value} (h : v.Alike r q v') : Flow.Alike (.returned v) (.returned v')

structure Binding.Alike (b b' : Binding) : Prop where
  value : b.value.Alike r q b'.value
  type : b.type = b'.type

def Frame.Alike (f f' : Frame) : Prop :=
  List.Forall₂ (fun e e' => r e.1 e'.1 ∧ e.2.Alike r q e'.2) f f'

/-- The second machine has printed and told `pre` before all that the first one has. -/
structure Machine.Alike (pre : Earlier) (m m' : Machine) : Prop where
  size : m.frames.size = m'.frames.size
  frames : ∀ i : Nat, Frame.Alike r q (m.frames[i]?.getD []) (m'.frames[i]?.getD [])
  output : pre.output ++ m.output = m'.output
  events : m.events ++ pre.events = m'.events

inductive Halt.Alike : Halt → Halt → Prop
  | fault {d d' : Diagnostic} (h : d.Alike q d') : Halt.Alike (.fault d) (.fault d')
  | refused (reason : String) : Halt.Alike (.refused reason) (.refused reason)
  | breach (message : String) : Halt.Alike (.breach message) (.breach message)
  | exhausted : Halt.Alike .exhausted .exhausted

/-- Both runs know the same names by the ids that `r` pairs. -/
structure Setting.Alike (s s' : Setting) : Prop where
  pairs : ∀ {a a' b b' : Int}, r a a' → r b b' → (a = b ↔ a' = b')
  names : ∀ {a a' : Int}, r a a' → s.table.SameName s'.table a a'
  budget : s.budget = s'.budget
  traced : s.traced = s'.traced
  refusal : s.refusal = s'.refusal

end

section

variable {r : Int → Int → Prop} {q : Location → Location → Prop}

namespace Value.Alike

variable {v v' : Value}

theorem word?_eq (h : v.Alike r q v') : v.word? = v'.word? := by cases h <;> rfl

theorem isUnsigned_eq (h : v.Alike r q v') : v.isUnsigned = v'.isUnsigned := by cases h <;> rfl

theorem isTruthy_eq (h : v.Alike r q v') : v.isTruthy = v'.isTruthy := by cases h <;> rfl

theorem negate?_eq (h : v.Alike r q v') : v.negate? = v'.negate? := by cases h <;> rfl

theorem exitCode_eq (h : v.Alike r q v') : v.exitCode = v'.exitCode := by
  rw [exitCode, exitCode, h.word?_eq]

theorem render_eq (h : v.Alike r q v') : v.render = v'.render := by
  cases h with
  | plain | print => rfl
  | closure h => simp only [render, Callable.name, h.name]

theorem narrow (h : v.Alike r q v') (type : Datatype) :
    (v.narrow type).Alike r q (v'.narrow type) := by
  cases h with
  | plain h => exact .plain ((narrow_eq_or_isPlain type _).2 h)
  | print => exact .print
  | closure h => exact .closure h

theorem widen {r' : Int → Int → Prop} (hr : ∀ a b, r a b → r' a b) (h : v.Alike r q v') :
    v.Alike r' q v' := by
  cases h with
  | plain h => exact .plain h
  | print => exact .print
  | closure h =>
    have hparams := h.params.imp fun _ _ hp => Param.Alike.widen hr hp
    exact .closure ⟨h.name, hparams, h.result, h.body.widen hr, h.scope⟩

end Value.Alike

/-- Values are rendered in one line each, so that alike arguments print alike. -/
theorem Value.Alike.renders {vs vs' : List Value} (h : List.Forall₂ (Value.Alike r q) vs vs') :
    vs.map Value.render = vs'.map Value.render := by
  induction h with
  | nil => rfl
  | cons hv _ ih => rw [List.map_cons, List.map_cons, hv.render_eq, ih]

namespace Frame.Alike

variable (hr : ∀ {a a' b b' : Int}, r a a' → r b b' → (a = b ↔ a' = b')) {f f' : Frame}
include hr

theorem find? (h : f.Alike r q f') {id id' : Int} (hid : r id id') :
    Option.Rel (Binding.Alike r q) (f.find? id) (f'.find? id') := by
  unfold Frame.find?
  induction h with
  | nil => exact .none
  | @cons e e' rest rest' he _ ih =>
    have hkey : (e.1 == id) = (e'.1 == id') := by
      rw [Bool.eq_iff_iff, beq_iff_eq, beq_iff_eq]
      exact hr he.1 hid
    rw [List.find?_cons, List.find?_cons, hkey]
    split
    · exact .some he.2
    · exact ih

theorem declare (h : f.Alike r q f') {id id' : Int} (hid : r id id') {b b' : Binding}
    (hb : b.Alike r q b') : (f.declare id b).Alike r q (f'.declare id' b') := by
  refine .cons ⟨hid, hb⟩ ?_
  induction h with
  | nil => exact .nil
  | @cons e e' rest rest' he _ ih =>
    have hkey : (e.1 != id) = (e'.1 != id') := by
      rw [Bool.eq_iff_iff, bne_iff_ne, bne_iff_ne]
      exact not_congr (hr he.1 hid)
    rw [List.filter_cons, List.filter_cons, hkey]
    split
    · exact .cons he ih
    · exact ih

theorem assign (h : f.Alike r q f') {id id' : Int} (hid : r id id') {v v' : Value}
    (hv : v.Alike r q v') : (f.assign id v).Alike r q (f'.assign id' v') := by
  unfold Frame.assign
  induction h with
  | nil => exact .nil
  | @cons e e' rest rest' he _ ih =>
    have hkey : (e.1 == id) = (e'.1 == id') := by
      rw [Bool.eq_iff_iff, beq_iff_eq, beq_iff_eq]
      exact hr he.1 hid
    rw [List.map_cons, List.map_cons]
    refine .cons ?_ ih
    dsimp only
    rw [hkey]
    split
    · exact ⟨he.1, hv, he.2.type⟩
    · exact he

end Frame.Alike

namespace Machine.Alike

variable {pre : Earlier} {m m' : Machine}

theorem told_eq (h : m.Alike r q .nothing m') : m.output = m'.output ∧ m.events = m'.events :=
  ⟨String.empty_append.symm.trans h.output, (List.append_nil _).symm.trans h.events⟩

theorem widen {r' : Int → Int → Prop} (hr : ∀ a b, r a b → r' a b) (h : m.Alike r q pre m') :
    m.Alike r' q pre m' := by
  refine ⟨h.size, fun i => (h.frames i).imp fun e e' he => ?_, h.output, h.events⟩
  exact ⟨hr _ _ he.1, he.2.value.widen hr, he.2.type⟩

theorem modify (h : m.Alike r q pre m') (i : Nat) {g g' : Frame → Frame}
    (hg : ∀ f f' : Frame, f.Alike r q f' → (g f).Alike r q (g' f')) :
    Machine.Alike r q pre { m with frames := m.frames.modify i g }
      { m' with frames := m'.frames.modify i g' } := by
  refine ⟨?_, fun j => ?_, h.output, h.events⟩
  · simpa using h.size
  · have hj := h.frames j
    simp only [Array.getElem?_modify]
    split
    · cases hm : m.frames[j]? with
      | none =>
        have hm' : m'.frames[j]? = none := by
          rw [Array.getElem?_eq_none_iff] at hm ⊢
          rw [← h.size]
          exact hm
        rw [hm']
        exact .nil
      | some f =>
        obtain ⟨f', hm'⟩ : ∃ f', m'.frames[j]? = some f' := by
          obtain ⟨hlt, -⟩ := Array.getElem?_eq_some_iff.1 hm
          rw [h.size] at hlt
          exact ⟨_, Array.getElem?_eq_getElem hlt⟩
        rw [hm, hm'] at hj
        rw [hm']
        exact hg _ _ hj
    · exact hj

theorem push (h : m.Alike r q pre m') :
    Machine.Alike r q pre { m with frames := m.frames.push [] }
      { m' with frames := m'.frames.push [] } := by
  refine ⟨?_, fun j => ?_, h.output, h.events⟩
  · simpa using h.size
  · simp only [Array.getElem?_push, h.size]
    split
    · exact .nil
    · exact h.frames j

end Machine.Alike

end

/-- Ends of two computations that correspond. -/
inductive Exec.Matched (r : Int → Int → Prop) (q : Location → Location → Prop) (pre : Earlier)
    {α α' : Type} (R : α → α' → Prop) :
    EStateM.Result Halt Machine α → EStateM.Result Halt Machine α' → Prop
  | ok {a : α} {a' : α'} {m m' : Machine} (ha : R a a') (hm : m.Alike r q pre m') :
    Exec.Matched r q pre R (.ok a m) (.ok a' m')
  | error {h h' : Halt} {m m' : Machine} (hh : h.Alike q h') (hm : m.Alike r q pre m') :
    Exec.Matched r q pre R (.error h m) (.error h' m')

/-- On corresponding machines the computations come to corresponding ends. -/
def Exec.Alike (r : Int → Int → Prop) (q : Location → Location → Prop) (pre : Earlier)
    {α α' : Type} (R : α → α' → Prop) (p : Exec α) (p' : Exec α') : Prop :=
  ∀ m m' : Machine, m.Alike r q pre m' → Exec.Matched r q pre R (p m) (p' m')

namespace Exec.Alike

variable {r : Int → Int → Prop} {q : Location → Location → Prop} {pre : Earlier}
  {α α' β β' : Type} {R : α → α' → Prop} {S : β → β' → Prop} {p : Exec α} {p' : Exec α'}

theorem pure {a : α} {a' : α'} (h : R a a') :
    Exec.Alike r q pre R (Pure.pure a) (Pure.pure a') :=
  fun _ _ hm => .ok h hm

theorem throw {h h' : Halt} (hh : h.Alike q h') :
    Exec.Alike r q pre R (MonadExcept.throw h) (MonadExcept.throw h') :=
  fun _ _ hm => .error hh hm

theorem fault (code : Code) {loc loc' : Location} (hloc : q loc loc')
    (args : List (String × Argument)) :
    Exec.Alike r q pre R (Exec.fault code loc args) (Exec.fault code loc' args) :=
  throw (.fault ⟨rfl, hloc, rfl⟩)

theorem bind {k : α → Exec β} {k' : α' → Exec β'} (hp : Exec.Alike r q pre R p p')
    (hk : ∀ a a', R a a' → Exec.Alike r q pre S (k a) (k' a')) :
    Exec.Alike r q pre S (p >>= k) (p' >>= k') := by
  intro m m' hm
  have hfirst := hp m m' hm
  simp only [Bind.bind, EStateM.bind]
  generalize p m = x, p' m' = x' at hfirst ⊢
  cases hfirst with
  | ok ha hn => exact hk _ _ ha _ _ hn
  | error hh hn => exact .error hh hn

theorem map {f : α → β} {f' : α' → β'} (hp : Exec.Alike r q pre R p p')
    (hf : ∀ a a', R a a' → S (f a) (f' a')) : Exec.Alike r q pre S (f <$> p) (f' <$> p') := by
  rw [map_eq_pure_bind, map_eq_pure_bind]
  exact hp.bind fun a a' ha => pure (hf a a' ha)

theorem modify {g g' : Machine → Machine}
    (hg : ∀ m m' : Machine, m.Alike r q pre m' → (g m).Alike r q pre (g' m')) :
    Exec.Alike r q pre (fun _ _ => True) (modify g : Exec Unit) (modify g' : Exec Unit) :=
  fun m m' hm => .ok trivial (hg m m' hm)

section

variable {setting setting' : Setting} (hsetting : setting.Alike r setting')
include hsetting

theorem note (e : Event) :
    Exec.Alike r q pre (fun _ _ => True) (Exec.note setting e) (Exec.note setting' e) := by
  unfold Exec.note
  rw [hsetting.traced]
  split
  · exact modify fun m m' hm => ⟨hm.size, hm.frames, hm.output, congrArg (e :: ·) hm.events⟩
  · exact pure trivial

theorem nameOf {id id' : Int} (hid : r id id') :
    Exec.Alike r q pre Eq (Exec.nameOf setting id) (Exec.nameOf setting' id') := by
  obtain ⟨x, y, hx, hy, hname⟩ := hsetting.names hid
  simp only [Exec.nameOf, SymbolTable.lookup, hx, hy]
  exact pure hname

theorem writeLine (text : String) :
    Exec.Alike r q pre (fun _ _ => True) (Exec.writeLine setting text)
      (Exec.writeLine setting' text) := by
  unfold Exec.writeLine
  rw [hsetting.refusal]
  split
  · exact throw (.refused _)
  · refine modify fun m m' hm => ⟨hm.size, hm.frames, ?_, hm.events⟩
    simp only [← hm.output, String.append_assoc]

theorem declare (scope : List Nat) {id id' : Int} (hid : r id id') (type : Datatype)
    {v v' : Value} (hv : v.Alike r q v') :
    Exec.Alike r q pre (fun _ _ => True) (Exec.declare scope id type v)
      (Exec.declare scope id' type v') := by
  cases scope with
  | nil => exact modify fun _ _ hm => hm
  | cons frame rest =>
    exact modify fun m m' hm => hm.modify frame fun f f' hf =>
      hf.declare hsetting.pairs hid ⟨hv.narrow type, rfl⟩

theorem assign (frame : Nat) {id id' : Int} (hid : r id id') {v v' : Value}
    (hv : v.Alike r q v') :
    Exec.Alike r q pre (fun _ _ => True) (Exec.assign frame id v) (Exec.assign frame id' v') :=
  modify fun _ _ hm => hm.modify frame fun _ _ hf => hf.assign hsetting.pairs hid hv

theorem findIn {m m' : Machine} (hm : m.Alike r q pre m') {id id' : Int} (hid : r id id')
    (scope : List Nat) :
    Option.Rel (fun x x' => x.1 = x'.1 ∧ x.2.Alike r q x'.2) (Exec.findIn m.frames id scope)
      (Exec.findIn m'.frames id' scope) := by
  induction scope with
  | nil => exact .none
  | cons frame rest ih =>
    have hfind := (hm.frames frame).find? hsetting.pairs hid
    simp only [Exec.findIn]
    generalize (m.frames[frame]?.getD []).find? id = x,
      (m'.frames[frame]?.getD []).find? id' = x' at hfind ⊢
    cases hfind with
    | none => exact ih
    | some hb => exact .some ⟨rfl, hb⟩

theorem lookup (scope : List Nat) {id id' : Int} (hid : r id id') {loc loc' : Location}
    (hloc : q loc loc') :
    Exec.Alike r q pre (fun x x' => x.1 = x'.1 ∧ x.2.Alike r q x'.2)
      (Exec.lookup setting scope id loc) (Exec.lookup setting' scope id' loc') := by
  intro m m' hm
  have hfind := findIn hsetting hm hid scope
  rw [Folds.lookup_eq, Folds.lookup_eq]
  generalize Exec.findIn m.frames id scope = x, Exec.findIn m'.frames id' scope = x' at hfind ⊢
  cases hfind with
  | some hx => exact .ok hx hm
  | none =>
    refine (nameOf hsetting hid).bind (fun name name' hname => ?_) m m' hm
    rw [hname]
    exact fault _ hloc _

theorem leaving (hp : Exec.Alike r q pre R p p') :
    Exec.Alike r q pre R (Folds.leaving setting p) (Folds.leaving setting' p') := by
  intro m m' hm
  have hfirst := hp m m' hm
  unfold Folds.leaving
  generalize p m = x, p' m' = x' at hfirst ⊢
  cases hfirst with
  | ok ha hn => exact (note hsetting .pop).bind (fun _ _ _ => pure ha) _ _ hn
  | error hh hn => exact (note hsetting .pop).bind (fun _ _ _ => throw hh) _ _ hn

theorem inFrame (scope : List Nat) {body : List Nat → Exec α} {body' : List Nat → Exec α'}
    (hbody : ∀ scope, Exec.Alike r q pre R (body scope) (body' scope)) :
    Exec.Alike r q pre R (Exec.inFrame setting scope body) (Exec.inFrame setting' scope body') := by
  rw [Folds.inFrame_eq, Folds.inFrame_eq]
  have henter : Exec.Alike r q pre Eq Folds.enter Folds.enter :=
    fun m m' hm => .ok hm.size hm.push
  refine (note hsetting .push).bind fun _ _ _ => henter.bind fun frame frame' hframe => ?_
  rw [hframe]
  exact leaving hsetting (hbody (frame' :: scope))

end

theorem whileLoop {test test' : Exec Bool} {body body' : Exec Flow}
    (htest : Exec.Alike r q pre Eq test test')
    (hbody : Exec.Alike r q pre (Flow.Alike r q) body body')
    (rounds : Nat) :
    Exec.Alike r q pre (Flow.Alike r q) (Exec.whileLoop test body rounds)
      (Exec.whileLoop test' body' rounds) := by
  induction rounds with
  | zero => exact throw .exhausted
  | succ rounds ih =>
    refine htest.bind fun holds holds' hholds => ?_
    rw [hholds]
    cases holds' with
    | false => exact pure .next
    | true =>
      refine hbody.bind fun flow flow' hflow => ?_
      cases hflow with
      | next => exact ih
      | returned hv => exact pure (.returned hv)

end Exec.Alike

end Ember
