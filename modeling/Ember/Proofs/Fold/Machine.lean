import Ember.Proofs.Fold.Native
import Ember.Run.Session

namespace Ember

namespace Closure

def fold (f : Closure) : Closure := { f with body := Stmt.foldAll f.body }

def Native (f : Closure) : Prop := Stmt.NativeAll f.body

end Closure

def Callable.fold : Callable → Callable
  | closure f => closure f.fold
  | print => print

@[simp] theorem Callable.name_fold (f : Callable) : f.fold.name = f.name := by cases f <;> rfl

@[simp] theorem Callable.arity?_fold (f : Callable) : f.fold.arity? = f.arity? := by
  cases f <;> rfl

namespace Value

/-- A value of the run of a folded program. -/
def fold : Value → Value
  | func f => func f.fold
  | v => v

/-- The functions that a value stands for hold native constants only. -/
def Native : Value → Prop
  | func (.closure f) => f.Native
  | _ => True

@[simp] theorem word?_fold (v : Value) : v.fold.word? = v.word? := by cases v <;> rfl

@[simp] theorem isUnsigned_fold (v : Value) : v.fold.isUnsigned = v.isUnsigned := by
  cases v <;> rfl

@[simp] theorem isTruthy_fold (v : Value) : v.fold.isTruthy = v.isTruthy := by cases v <;> rfl

@[simp] theorem negate?_fold (v : Value) : v.fold.negate? = v.negate? := by cases v <;> rfl

@[simp] theorem exitCode_fold (v : Value) : v.fold.exitCode = v.exitCode := by simp [exitCode]

@[simp] theorem render_fold (v : Value) : v.fold.render = v.render := by
  cases v <;> simp [fold, render]

/-- The value is no function, so that folding leaves it alone. -/
def IsPlain : Value → Prop
  | func _ => False
  | _ => True

theorem IsPlain.fold_eq {v : Value} (h : v.IsPlain) : v.fold = v := by
  cases v <;> first | rfl | exact h.elim

theorem IsPlain.native {v : Value} (h : v.IsPlain) : v.Native := by
  cases v <;> trivial

theorem isPlain_zero (type : Datatype) : (zero type).IsPlain := by
  unfold zero
  split
  · trivial
  · trivial
  · split <;> trivial

theorem isPlain_ofLiteral (l : Literal) : (ofLiteral l).IsPlain := by
  cases l with
  | int | uint | bool => trivial
  | foreign type v b =>
    simp only [ofLiteral]
    split
    · trivial
    · split <;> trivial

/-- Narrowing changes words only, and functions are none. -/
theorem narrow_eq_or_isPlain (type : Datatype) (v : Value) :
    (∀ f, v = func f → v.narrow type = v) ∧ (v.IsPlain → (v.narrow type).IsPlain) := by
  constructor
  · rintro f rfl
    rfl
  · intro h
    unfold narrow
    split
    · exact h
    · split
      · trivial
      · trivial
      · split
        · trivial
        · exact h

theorem narrow_fold (type : Datatype) (v : Value) :
    v.fold.narrow type = (v.narrow type).fold := by
  obtain ⟨hfunc, hplain⟩ := narrow_eq_or_isPlain type v
  cases v with
  | func f => rw [hfunc f rfl]; rfl
  | void | int | uint | bool => exact (hplain trivial).fold_eq.symm

theorem Native.narrow {v : Value} (h : v.Native) (type : Datatype) : (v.narrow type).Native := by
  obtain ⟨hfunc, hplain⟩ := narrow_eq_or_isPlain type v
  cases v with
  | func f => rw [hfunc f rfl]; exact h
  | void | int | uint | bool => exact (hplain trivial).native

end Value

def Flow.fold : Flow → Flow
  | .next => .next
  | .returned value => .returned value.fold

def Flow.Native : Flow → Prop
  | .next => True
  | .returned value => value.Native

def Binding.fold (b : Binding) : Binding := { b with value := b.value.fold }

namespace Frame

/-- Every value in the frame is good. -/
def All (good : Value → Prop) (f : Frame) : Prop := ∀ e ∈ f, good e.2.value

namespace All

variable {good : Value → Prop} {f : Frame}

theorem find? (h : f.All good) {id : Int} {b : Binding} (hfind : f.find? id = some b) :
    good b.value := by
  obtain ⟨e, he, rfl⟩ := Option.map_eq_some_iff.1 hfind
  exact h e (List.mem_of_find?_eq_some he)

theorem declare (h : f.All good) (id : Int) {b : Binding} (hb : good b.value) :
    (f.declare id b).All good := by
  intro e he
  rcases List.mem_cons.1 he with rfl | he
  · exact hb
  · exact h e (List.mem_filter.1 he).1

theorem assign (h : f.All good) (id : Int) {v : Value} (hv : good v) :
    (f.assign id v).All good := by
  intro e he
  obtain ⟨⟨key, b⟩, hmem, rfl⟩ := List.mem_map.1 he
  dsimp only
  split
  · exact hv
  · exact h _ hmem

end All

def fold (f : Frame) : Frame := f.map fun (id, b) => (id, b.fold)

def Native (f : Frame) : Prop := ∀ e ∈ f, e.2.value.Native

theorem find?_fold (f : Frame) (id : Int) : f.fold.find? id = (f.find? id).map Binding.fold := by
  have hmap := List.find?_map (p := fun e : Int × Binding => e.1 == id)
    (f := fun e : Int × Binding => (e.1, e.2.fold)) (l := f)
  unfold find? fold
  rw [hmap, Option.map_map, Option.map_map]
  rfl

theorem Native.find? {f : Frame} (h : f.Native) {id : Int} {b : Binding}
    (hfind : f.find? id = some b) : b.value.Native := All.find? h hfind

theorem declare_fold (f : Frame) (id : Int) (b : Binding) :
    f.fold.declare id b.fold = (f.declare id b).fold := by
  unfold declare fold
  rw [List.map_cons, List.filter_map]
  rfl

theorem Native.declare {f : Frame} (h : f.Native) (id : Int) {b : Binding}
    (hb : b.value.Native) : (f.declare id b).Native := All.declare h id hb

theorem assign_fold (f : Frame) (id : Int) (v : Value) :
    f.fold.assign id v.fold = (f.assign id v).fold := by
  unfold assign fold
  rw [List.map_map, List.map_map]
  refine List.map_congr_left fun e _ => ?_
  simp only [Function.comp]
  split <;> rfl

theorem Native.assign {f : Frame} (h : f.Native) (id : Int) {v : Value} (hv : v.Native) :
    (f.assign id v).Native := All.assign h id hv

end Frame

namespace Machine

theorem forall_getD {q : Frame → Prop} {m : Machine} (h : ∀ f ∈ m.frames, q f) (hnil : q [])
    (i : Nat) : q (m.frames[i]?.getD []) := by
  cases hi : m.frames[i]? with
  | none => exact hnil
  | some f => exact h f (Array.mem_of_getElem? hi)

/-- What holds of every frame holds after a change of one that keeps it. -/
theorem forall_modify {q : Frame → Prop} {m : Machine} (h : ∀ f ∈ m.frames, q f) (i : Nat)
    {g : Frame → Frame} (hg : ∀ f, q f → q (g f)) : ∀ f ∈ m.frames.modify i g, q f := by
  intro f hf
  obtain ⟨j, hj, rfl⟩ := Array.getElem_of_mem hf
  simp only [Array.size_modify] at hj
  have hold := h _ (Array.getElem_mem hj)
  rw [Array.getElem_modify]
  split
  · exact hg _ hold
  · exact hold

/-- The machine that the folded program has at the same point of its run. -/
def fold (m : Machine) : Machine := { m with frames := m.frames.map Frame.fold }

def Native (m : Machine) : Prop := ∀ f ∈ m.frames, f.Native

theorem Native.getD {m : Machine} (h : m.Native) (i : Nat) :
    (m.frames[i]?.getD []).Native := forall_getD h (List.forall_mem_nil _) i

theorem getD_fold (m : Machine) (i : Nat) :
    m.fold.frames[i]?.getD [] = (m.frames[i]?.getD []).fold := by
  simp only [fold, Array.getElem?_map]
  cases m.frames[i]? <;> rfl

/-- A change of one frame that folding commutes with. -/
theorem modify_fold (m : Machine) (i : Nat) {g g' : Frame → Frame}
    (hg : ∀ f : Frame, g' f.fold = (g f).fold) :
    { m.fold with frames := m.fold.frames.modify i g' } =
      { m with frames := m.frames.modify i g }.fold := by
  have hframes : (m.frames.map Frame.fold).modify i g' = (m.frames.modify i g).map Frame.fold := by
    apply Array.ext
    · simp
    · intro j _ _
      simp only [Array.getElem_modify, Array.getElem_map]
      split
      · exact hg _
      · rfl
  simp only [fold, hframes]

theorem Native.modify {m : Machine} (h : m.Native) (i : Nat) {g : Frame → Frame}
    (hg : ∀ f : Frame, f.Native → (g f).Native) :
    Native { m with frames := m.frames.modify i g } := forall_modify h i hg

theorem Native.push {m : Machine} (h : m.Native) :
    Native { m with frames := m.frames.push [] } := by
  intro f hf
  rcases Array.mem_push.1 hf with hf | rfl
  · exact h f hf
  · intro e he; cases he

end Machine

/-- On the folded machine `q` does what `p` does on the machine itself: it gives the result of
`p` folded, or stops for the same reason, and leaves the folded machine. Native machines stay
native, and so is what `p` gives. -/
def Folds {α : Type} (fold : α → α) (native : α → Prop) (p q : Exec α) : Prop :=
  ∀ m : Machine, m.Native →
    match p m with
    | .ok a m' => native a ∧ m'.Native ∧ q m.fold = .ok (fold a) m'.fold
    | .error h m' => m'.Native ∧ q m.fold = .error h m'.fold

/-- Results that folding does not touch. -/
abbrev FoldsSame {α : Type} (p q : Exec α) : Prop := Folds id (fun _ => True) p q

namespace Folds

variable {α β : Type} {fold : α → α} {native : α → Prop} {fold' : β → β} {native' : β → Prop}
  {p q : Exec α}

theorem pure {a : α} (ha : native a) : Folds fold native (Pure.pure a) (Pure.pure (fold a)) :=
  fun _ hm => ⟨ha, hm, rfl⟩

theorem throw (h : Halt) : Folds fold native (MonadExcept.throw h) (MonadExcept.throw h) :=
  fun _ hm => ⟨hm, rfl⟩

theorem fault (code : Code) (loc : Location) (args : List (String × Argument)) :
    Folds fold native (Exec.fault code loc args) (Exec.fault code loc args) :=
  throw _

theorem bind {k k' : α → Exec β} (hp : Folds fold native p q)
    (hk : ∀ a, native a → Folds fold' native' (k a) (k' (fold a))) :
    Folds fold' native' (p >>= k) (q >>= k') := by
  intro m hm
  have hfirst := hp m hm
  cases hrun : p m with
  | ok a m' =>
    simp only [hrun] at hfirst
    obtain ⟨ha, hm', hq⟩ := hfirst
    have hbind : (p >>= k) m = k a m' := by simp only [Bind.bind, EStateM.bind, hrun]
    have hbind' : (q >>= k') m.fold = k' (fold a) m'.fold := by
      simp only [Bind.bind, EStateM.bind, hq]
    rw [hbind, hbind']
    exact hk a ha m' hm'
  | error h m' =>
    simp only [hrun] at hfirst
    obtain ⟨hm', hq⟩ := hfirst
    have hbind : (p >>= k) m = .error h m' := by simp only [Bind.bind, EStateM.bind, hrun]
    have hbind' : (q >>= k') m.fold = .error h m'.fold := by
      simp only [Bind.bind, EStateM.bind, hq]
    rw [hbind, hbind']
    exact ⟨hm', rfl⟩

theorem map {g : α → β} (hp : Folds fold native p q)
    (hg : ∀ a, native a → native' (g a) ∧ g (fold a) = fold' (g a)) :
    Folds fold' native' (g <$> p) (g <$> q) := by
  rw [map_eq_pure_bind, map_eq_pure_bind]
  refine hp.bind fun a ha => ?_
  rw [(hg a ha).2]
  exact pure (hg a ha).1

theorem modify {g g' : Machine → Machine} (hg : ∀ m : Machine, g' m.fold = (g m).fold)
    (hnative : ∀ m : Machine, m.Native → (g m).Native) :
    FoldsSame (modify g : Exec Unit) (modify g') := by
  intro m hm
  refine ⟨trivial, hnative m hm, ?_⟩
  exact congrArg _ (hg m)

theorem note (setting : Setting) (e : Event) :
    FoldsSame (Exec.note setting e) (Exec.note setting e) := by
  unfold Exec.note
  split
  · exact modify (fun _ => rfl) fun _ hm => hm
  · exact pure trivial

theorem nameOf (setting : Setting) (id : Int) :
    FoldsSame (Exec.nameOf setting id) (Exec.nameOf setting id) := by
  unfold Exec.nameOf
  split
  · exact pure trivial
  · exact throw _

theorem writeLine (setting : Setting) (text : String) :
    FoldsSame (Exec.writeLine setting text) (Exec.writeLine setting text) := by
  unfold Exec.writeLine
  split
  · exact throw _
  · exact modify (fun _ => rfl) fun _ hm => hm

theorem declare (scope : List Nat) (id : Int) (type : Datatype) {v : Value} (hv : v.Native) :
    FoldsSame (Exec.declare scope id type v) (Exec.declare scope id type v.fold) := by
  cases scope with
  | nil => exact modify (fun _ => rfl) fun _ hm => hm
  | cons frame rest =>
    refine modify (fun m => Machine.modify_fold m frame fun f => ?_)
      fun m hm => hm.modify frame fun f hf => hf.declare id (hv.narrow type)
    rw [Value.narrow_fold]
    exact f.declare_fold id ⟨v.narrow type, type⟩

theorem assign (frame : Nat) (id : Int) {v : Value} (hv : v.Native) :
    FoldsSame (Exec.assign frame id v) (Exec.assign frame id v.fold) :=
  modify (fun m => Machine.modify_fold m frame fun f => f.assign_fold id v)
    fun _ hm => hm.modify frame fun _ hf => hf.assign id hv

/-- What a name is found to mean. -/
def found (x : Nat × Binding) : Nat × Binding := (x.1, x.2.fold)

theorem findIn_fold (m : Machine) (id : Int) (scope : List Nat) :
    Exec.findIn m.fold.frames id scope = (Exec.findIn m.frames id scope).map found := by
  induction scope with
  | nil => rfl
  | cons frame rest ih =>
    simp only [Exec.findIn, Machine.getD_fold, Frame.find?_fold]
    cases (m.frames[frame]?.getD []).find? id with
    | none => exact ih
    | some b => rfl

theorem findIn_native {m : Machine} (hm : m.Native) {id : Int} {scope : List Nat}
    {x : Nat × Binding} (hx : Exec.findIn m.frames id scope = some x) : x.2.value.Native := by
  induction scope with
  | nil => cases hx
  | cons frame rest ih =>
    simp only [Exec.findIn] at hx
    cases hfind : (m.frames[frame]?.getD []).find? id with
    | none => rw [hfind] at hx; exact ih hx
    | some b =>
      rw [hfind] at hx
      cases hx
      exact (hm.getD frame).find? hfind

/-- What a search came to, or what is done if it came to nothing. -/
def foundOr (miss : Exec (Nat × Binding)) : Option (Nat × Binding) → Exec (Nat × Binding)
  | some x => Pure.pure x
  | none => miss

theorem lookup_eq (setting : Setting) (scope : List Nat) (id : Int) (loc : Location) (m : Machine) :
    Exec.lookup setting scope id loc m =
      foundOr (do Exec.fault .undefinedVariable loc [("name", .text (← Exec.nameOf setting id))])
        (Exec.findIn m.frames id scope) m := rfl

theorem lookup (setting : Setting) (scope : List Nat) (id : Int) (loc : Location) :
    Folds found (fun x => x.2.value.Native) (Exec.lookup setting scope id loc)
      (Exec.lookup setting scope id loc) := by
  intro m hm
  have hfold := findIn_fold m id scope
  rw [lookup_eq, lookup_eq]
  cases hfind : Exec.findIn m.frames id scope with
  | some x =>
    rw [hfind] at hfold
    rw [hfold]
    exact ⟨findIn_native hm hfind, hm, rfl⟩
  | none =>
    rw [hfind] at hfold
    rw [hfold]
    exact (nameOf setting id).bind (fun _ _ => fault _ _ _) m hm

/-- Opens a frame and gives its number. -/
def enter : Exec Nat := fun m => .ok m.frames.size { m with frames := m.frames.push [] }

/-- Runs `p` and tells that its frame is left, also when `p` stops early. -/
def leaving (setting : Setting) (p : Exec α) : Exec α := fun m =>
  match p m with
  | .ok a m => (do Exec.note setting .pop; return a) m
  | .error h m => (do Exec.note setting .pop; MonadExcept.throw h) m

theorem inFrame_eq (setting : Setting) (scope : List Nat) (body : List Nat → Exec α) :
    Exec.inFrame setting scope body = (do
      Exec.note setting .push
      let frame ← enter
      leaving setting (body (frame :: scope))) := rfl

theorem enter_enter : FoldsSame enter enter := by
  intro m hm
  refine ⟨trivial, hm.push, ?_⟩
  simp [enter, Machine.fold, Frame.fold]

theorem leaving_leaving (setting : Setting) (hp : Folds fold native p q) :
    Folds fold native (leaving setting p) (leaving setting q) := by
  intro m hm
  have hfirst := hp m hm
  unfold leaving
  cases hrun : p m with
  | ok a m' =>
    simp only [hrun] at hfirst
    obtain ⟨ha, hm', hq⟩ := hfirst
    rw [hq]
    have hpop : Folds fold native (do Exec.note setting .pop; return a)
        (do Exec.note setting .pop; return fold a) := (note setting .pop).bind fun _ _ => pure ha
    exact hpop m' hm'
  | error h m' =>
    simp only [hrun] at hfirst
    obtain ⟨hm', hq⟩ := hfirst
    rw [hq]
    have hpop : Folds fold native (do Exec.note setting .pop; MonadExcept.throw h)
        (do Exec.note setting .pop; MonadExcept.throw h) :=
      (note setting .pop).bind fun _ _ => throw h
    exact hpop m' hm'

theorem inFrame (setting : Setting) (scope : List Nat) {body body' : List Nat → Exec α}
    (hbody : ∀ scope, Folds fold native (body scope) (body' scope)) :
    Folds fold native (Exec.inFrame setting scope body) (Exec.inFrame setting scope body') := by
  rw [inFrame_eq, inFrame_eq]
  refine (note setting .push).bind fun _ _ => ?_
  exact enter_enter.bind fun frame _ => leaving_leaving setting (hbody (frame :: scope))

theorem whileLoop {test test' : Exec Bool} {body body' : Exec Flow} (htest : FoldsSame test test')
    (hbody : Folds Flow.fold Flow.Native body body') (rounds : Nat) :
    Folds Flow.fold Flow.Native (Exec.whileLoop test body rounds)
      (Exec.whileLoop test' body' rounds) := by
  induction rounds with
  | zero => exact throw _
  | succ rounds ih =>
    refine htest.bind fun holds _ => ?_
    cases holds with
    | false => exact pure trivial
    | true =>
      refine hbody.bind fun flow hflow => ?_
      cases flow with
      | next => exact ih
      | returned v => exact pure hflow

end Folds

end Ember
