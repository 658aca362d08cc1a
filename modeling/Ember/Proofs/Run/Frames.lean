import Ember.Proofs.Fold.Machine

namespace Ember

namespace Frame

@[simp] theorem find?_nil (id : Int) : find? [] id = none := rfl

theorem find?_cons (key : Int) (b : Binding) (f : Frame) (id : Int) :
    find? ((key, b) :: f) id = if key = id then some b else find? f id := by
  by_cases h : key = id <;> simp [find?, h]

theorem find?_declare (f : Frame) (id : Int) (b : Binding) (id' : Int) :
    (f.declare id b).find? id' = if id = id' then some b else f.find? id' := by
  rw [declare, find?_cons]
  split
  · rfl
  · rename_i hne
    induction f with
    | nil => rfl
    | cons e rest ih =>
      obtain ⟨key, b'⟩ := e
      by_cases hkey : key = id
      · subst hkey
        simpa [find?_cons, hne] using ih
      · simp only [List.filter_cons, bne_iff_ne, ne_eq, hkey, not_false_eq_true, if_true,
          find?_cons, ih]

theorem find?_assign (f : Frame) (id : Int) (value : Value) (id' : Int) :
    (f.assign id value).find? id' =
      (f.find? id').map fun b => if id = id' then { b with value } else b := by
  induction f with
  | nil => rfl
  | cons e rest ih =>
    obtain ⟨key, b⟩ := e
    have hcons : assign ((key, b) :: rest) id value =
        (key, if key = id then { b with value } else b) :: assign rest id value := by
      by_cases hkey : key = id <;> simp [assign, hkey]
    rw [hcons, find?_cons, find?_cons, ih]
    by_cases hkey : key = id'
    · subst hkey
      simp [eq_comm]
    · simp [hkey]

end Frame

namespace Machine

/-- A frame of the machine; there is nothing in a frame that does not exist. -/
def frameAt (m : Machine) (frame : Nat) : Frame := m.frames[frame]?.getD []

theorem frameAt_of_le {m : Machine} {frame : Nat} (h : m.frames.size ≤ frame) :
    m.frameAt frame = [] := by
  simp [frameAt, Array.getElem?_eq_none h]

theorem lt_of_find? {m : Machine} {frame : Nat} {id : Int} {b : Binding}
    (h : (m.frameAt frame).find? id = some b) : frame < m.frames.size := by
  refine Nat.lt_of_not_le fun hle => ?_
  rw [frameAt_of_le hle] at h
  cases h

theorem frameAt_modify (m : Machine) (i : Nat) (g : Frame → Frame) (frame : Nat) :
    frameAt { m with frames := m.frames.modify i g } frame =
      if i = frame ∧ i < m.frames.size then g (m.frameAt frame) else m.frameAt frame := by
  by_cases hlt : frame < m.frames.size
  · by_cases heq : i = frame
    · subst heq
      simp [frameAt, hlt, Array.getElem_modify]
    · simp [frameAt, Array.getElem?_modify, heq]
  · have hle := Nat.le_of_not_lt hlt
    rw [if_neg (by omega), frameAt_of_le hle, frameAt_of_le (by simpa using hle)]

theorem frameAt_push (m : Machine) (frame : Nat) :
    frameAt { m with frames := m.frames.push [] } frame = m.frameAt frame := by
  rcases Nat.lt_trichotomy frame m.frames.size with hlt | heq | hgt
  · simp [frameAt, Array.getElem?_push_lt, hlt]
  · simp [frameAt, heq]
  · rw [frameAt_of_le (by simp; omega), frameAt_of_le (by omega)]

/-- The type that a frame gives a name. -/
def typeAt (m : Machine) (frame : Nat) (id : Int) : Option Datatype :=
  ((m.frameAt frame).find? id).map (·.type)

/-- Frames are only added, and a frame that exists goes on to declare what it declared. Names
are declared in the frame `own` alone. -/
structure Evolves (own : Option Nat) (m m' : Machine) : Prop where
  size_le : m.frames.size ≤ m'.frames.size
  typeAt_eq : ∀ frame < m.frames.size, some frame ≠ own →
    ∀ id, m'.typeAt frame id = m.typeAt frame id

namespace Evolves

variable {own : Option Nat} {m m' m'' : Machine}

theorem refl (own : Option Nat) (m : Machine) : Evolves own m m :=
  ⟨Nat.le_refl _, fun _ _ _ _ => rfl⟩

theorem trans (h : Evolves own m m') (h' : Evolves own m' m'') : Evolves own m m'' := by
  refine ⟨Nat.le_trans h.size_le h'.size_le, fun frame hlt hne id => ?_⟩
  rw [h'.typeAt_eq frame (Nat.lt_of_lt_of_le hlt h.size_le) hne, h.typeAt_eq frame hlt hne]

/-- A run that declares nothing in the frames that exist may run anywhere. -/
theorem mono (h : Evolves none m m') (own : Option Nat) : Evolves own m m' :=
  ⟨h.size_le, fun frame hlt _ => h.typeAt_eq frame hlt nofun⟩

/-- What is declared in a frame that does not exist yet is no change of those that do. -/
theorem of_fresh {frame : Nat} (h : Evolves (some frame) m m') (hfresh : m.frames.size ≤ frame) :
    Evolves none m m' := by
  refine ⟨h.size_le, fun frame' hlt _ => h.typeAt_eq frame' hlt ?_⟩
  rintro ⟨⟩
  omega

theorem of_frames (h : m'.frames = m.frames) : Evolves own m m' := by
  refine ⟨Nat.le_of_eq (by rw [h]), fun frame _ _ id => ?_⟩
  simp only [typeAt, frameAt, h]

theorem push (m : Machine) : Evolves none m { m with frames := m.frames.push [] } := by
  refine ⟨by simp, fun frame _ _ id => ?_⟩
  simp only [typeAt, frameAt_push]

theorem declare (m : Machine) (frame : Nat) (id : Int) (b : Binding) :
    Evolves (some frame) m { m with frames := m.frames.modify frame (·.declare id b) } := by
  refine ⟨by simp, fun frame' _ hne id' => ?_⟩
  have hframe : frame ≠ frame' := fun h => hne (congrArg some h.symm)
  simp only [typeAt, frameAt_modify, hframe, false_and, if_false]

theorem assign (m : Machine) (frame : Nat) (id : Int) (value : Value) :
    Evolves none m { m with frames := m.frames.modify frame (·.assign id value) } := by
  refine ⟨by simp, fun frame' _ _ id' => ?_⟩
  simp only [typeAt, frameAt_modify]
  split
  · rw [Frame.find?_assign, Option.map_map]
    congr 1
    funext b
    simp only [Function.comp]
    split <;> rfl
  · rfl

end Evolves

end Machine

namespace Exec

variable {α β : Type} {own : Option Nat}

/-- A search gives a frame of the scope, and what this frame binds the name to. -/
theorem find?_of_findIn {m : Machine} {id : Int} {scope : List Nat} {x : Nat × Binding}
    (h : findIn m.frames id scope = some x) :
    x.1 ∈ scope ∧ (m.frameAt x.1).find? id = some x.2 := by
  induction scope with
  | nil => cases h
  | cons frame rest ih =>
    simp only [findIn] at h
    split at h
    · rename_i b hb
      cases h
      exact ⟨List.mem_cons_self, hb⟩
    · obtain ⟨hmem, hfind⟩ := ih h
      exact ⟨List.mem_cons_of_mem _ hmem, hfind⟩

theorem lookup_eq_ok_iff {setting : Setting} {scope : List Nat} {id : Int} {loc : Location}
    {m m' : Machine} {x : Nat × Binding} :
    lookup setting scope id loc m = .ok x m' ↔ m' = m ∧ findIn m.frames id scope = some x := by
  rw [Folds.lookup_eq]
  cases findIn m.frames id scope with
  | some y =>
    constructor
    · intro h
      cases h
      exact ⟨rfl, rfl⟩
    · rintro ⟨rfl, h⟩
      cases h
      rfl
  | none =>
    refine ⟨fun h => ?_, fun h => by cases h.2⟩
    simp only [Folds.foundOr, nameOf, Bind.bind, EStateM.bind] at h
    split at h <;> cases h

theorem lookup_of_findIn (setting : Setting) {m : Machine} {scope : List Nat} {id : Int}
    {x : Nat × Binding} (h : findIn m.frames id scope = some x) (loc : Location) :
    lookup setting scope id loc m = .ok x m :=
  lookup_eq_ok_iff.2 ⟨rfl, h⟩

theorem bind_of_ok {p : Exec α} {k : α → Exec β} {m m' : Machine} {a : α} (h : p m = .ok a m') :
    (p >>= k) m = k a m' := by
  simp only [Bind.bind, EStateM.bind, h]

theorem bind_of_error {p : Exec α} {k : α → Exec β} {m m' : Machine} {e : Halt}
    (h : p m = .error e m') : (p >>= k) m = .error e m' := by
  simp only [Bind.bind, EStateM.bind, h]

/-- The machine that a computation leaves, however it ends. -/
def final (p : Exec α) (m : Machine) : Machine :=
  match p m with
  | .ok _ m' | .error _ m' => m'

theorem final_of_ok {p : Exec α} {m m' : Machine} {a : α} (h : p m = .ok a m') :
    p.final m = m' := by
  simp only [final, h]

theorem final_bind_of_ok {p : Exec α} {k : α → Exec β} {m m' : Machine} {a : α}
    (h : p m = .ok a m') : (p >>= k).final m = (k a).final m' := by
  simp only [final, Bind.bind, EStateM.bind, h]

theorem final_bind_of_error {p : Exec α} {k : α → Exec β} {m m' : Machine} {e : Halt}
    (h : p m = .error e m') : (p >>= k).final m = m' := by
  simp only [final, Bind.bind, EStateM.bind, h]

/-- A name goes on to refer to the same binding, of the same type, if nothing is declared in the
frames of the scope. -/
theorem findIn_of_evolves {m m' : Machine} (h : m.Evolves none m') {scope : List Nat}
    (hscope : ∀ frame ∈ scope, frame < m.frames.size) (id : Int) :
    (findIn m'.frames id scope).map (fun x => (x.1, x.2.type)) =
      (findIn m.frames id scope).map fun x => (x.1, x.2.type) := by
  induction scope with
  | nil => rfl
  | cons frame rest ih =>
    obtain ⟨hframe, hrest⟩ := List.forall_mem_cons.1 hscope
    have htype := h.typeAt_eq frame hframe nofun id
    simp only [Machine.typeAt, Machine.frameAt] at htype
    simp only [findIn]
    cases hfind : (m.frames[frame]?.getD []).find? id with
    | some b =>
      rw [hfind] at htype
      obtain ⟨b', hfind', hb'⟩ := Option.map_eq_some_iff.1 htype
      simp [hfind', hb']
    | none =>
      rw [hfind] at htype
      simp only [Option.map_eq_none_iff.1 htype]
      exact ih hrest

/-- The computation declares names in the frame `own` alone, and in frames of its own. -/
def Steady (own : Option Nat) (p : Exec α) : Prop := ∀ m : Machine, m.Evolves own (p.final m)

namespace Steady

variable {p : Exec α}

theorem mono (h : Steady none p) (own : Option Nat) : Steady own p := fun m => (h m).mono own

theorem pure (a : α) : Steady own (Pure.pure a : Exec α) := fun m => .refl own m

theorem throw (h : Halt) : Steady own (MonadExcept.throw h : Exec α) := fun m => .refl own m

theorem bind {k : α → Exec β} (hp : Steady own p) (hk : ∀ a, Steady own (k a)) :
    Steady own (p >>= k) := by
  intro m
  have hfirst := hp m
  cases hrun : p m with
  | ok a m' =>
    rw [final_of_ok hrun] at hfirst
    rw [final_bind_of_ok hrun]
    exact hfirst.trans (hk a m')
  | error e m' =>
    rw [final_bind_of_error hrun]
    simpa only [final, hrun] using hfirst

theorem map (g : α → β) (hp : Steady own p) : Steady own (g <$> p) := by
  rw [map_eq_pure_bind]
  exact hp.bind fun a => pure _

theorem note (setting : Setting) (e : Event) : Steady own (Exec.note setting e) := by
  unfold Exec.note
  split
  · exact fun m => .of_frames rfl
  · exact pure ()

theorem nameOf (setting : Setting) (id : Int) : Steady own (Exec.nameOf setting id) := by
  unfold Exec.nameOf
  split
  · exact pure _
  · exact throw _

theorem fault (code : Code) (loc : Location) (args : List (String × Argument)) :
    Steady own (Exec.fault code loc args : Exec α) := throw _

theorem writeLine (setting : Setting) (text : String) :
    Steady own (Exec.writeLine setting text) := by
  unfold Exec.writeLine
  split
  · exact throw _
  · exact fun m => .of_frames rfl

theorem lookup (setting : Setting) (scope : List Nat) (id : Int) (loc : Location) :
    Steady own (Exec.lookup setting scope id loc) := by
  intro m
  have hmiss : Steady own (do
      Exec.fault .undefinedVariable loc [("name", .text (← Exec.nameOf setting id))] :
        Exec (Nat × Binding)) := (nameOf setting id).bind fun _ => fault _ _ _
  unfold final
  rw [Folds.lookup_eq]
  cases Exec.findIn m.frames id scope with
  | some x => exact .refl own m
  | none => exact hmiss m

theorem declare (scope : List Nat) (id : Int) (type : Datatype) (value : Value) :
    Steady scope.head? (Exec.declare scope id type value) := by
  intro m
  cases scope with
  | nil => exact .refl _ m
  | cons frame rest => exact .declare m frame id _

theorem assign (frame : Nat) (id : Int) (value : Value) :
    Steady own (Exec.assign frame id value) :=
  fun m => (Machine.Evolves.assign m frame id value).mono own

theorem leaving (setting : Setting) (hp : Steady own p) : Steady own (Folds.leaving setting p) := by
  intro m
  have hfirst := hp m
  unfold final Folds.leaving
  unfold final at hfirst
  cases hrun : p m with
  | ok a m' =>
    simp only [hrun] at hfirst
    have hpop : Steady own (do Exec.note setting .pop; return a) :=
      (note setting .pop).bind fun _ => pure a
    exact hfirst.trans (hpop m')
  | error e m' =>
    simp only [hrun] at hfirst
    have hpop : Steady own (do Exec.note setting .pop; MonadExcept.throw e : Exec α) :=
      (note setting .pop).bind fun _ => throw e
    exact hfirst.trans (hpop m')

/-- What runs in a frame of its own declares nothing in the frames that exist. -/
theorem inFrame (setting : Setting) (scope : List Nat) {body : List Nat → Exec α}
    (hbody : ∀ frame, Steady (some frame) (body (frame :: scope))) :
    Steady own (Exec.inFrame setting scope body) := by
  rw [Folds.inFrame_eq]
  refine (note setting .push).bind fun _ m => ?_
  have henter : Folds.enter m = .ok m.frames.size { m with frames := m.frames.push [] } := rfl
  rw [final_bind_of_ok henter]
  have hrun := (leaving setting (hbody m.frames.size)) { m with frames := m.frames.push [] }
  have hpush := (Machine.Evolves.push m).mono (some m.frames.size)
  exact ((hpush.trans hrun).of_fresh (Nat.le_refl _)).mono own

theorem whileLoop {test : Exec Bool} {body : Exec Flow} (htest : Steady own test)
    (hbody : Steady own body) (rounds : Nat) : Steady own (Exec.whileLoop test body rounds) := by
  induction rounds with
  | zero => exact throw _
  | succ rounds ih =>
    refine htest.bind fun holds => ?_
    split
    · refine hbody.bind fun flow => ?_
      cases flow with
      | next => exact ih
      | returned v => exact pure _
    · exact pure _

end Steady

end Exec

open Exec

/-- Calls declare nothing in the frames that exist. -/
def Invoke.Steady (invoke : Invoke) : Prop := ∀ f args loc, Exec.Steady none (invoke f args loc)

section

variable {setting : Setting} {invoke : Invoke}

theorem Exec.Steady.unary (op : UnaryOp) (v : Value) (loc : Location) :
    Steady none (Value.unary op v loc) := by
  unfold Value.unary
  split
  · exact pure _
  · split
    · exact pure _
    · exact fault _ _ _

theorem Exec.Steady.binary (op : BinaryOp) (v w : Value) (loc : Location) :
    Steady none (Value.binary op v w loc) := by
  unfold Value.binary
  split
  · split
    · exact fault _ _ _
    · dsimp only
      split
      · exact pure _
      · exact throw _
      · exact throw _
  · exact fault _ _ _

theorem Exec.Steady.checkArity (f : Callable) (actual : Nat) (loc : Location) :
    Steady none (f.checkArity actual loc) := by
  unfold Callable.checkArity
  split
  · exact pure _
  · split
    · exact pure _
    · exact fault _ _ _

theorem Exec.Steady.call (hinvoke : Invoke.Steady invoke) (f : Callable) (args : List Value)
    (loc : Location) : Steady none (f.call setting invoke args loc) := by
  cases f with
  | closure f => exact hinvoke f args loc
  | print => exact (writeLine setting _).bind fun _ => pure _

theorem Exec.Steady.describe (callee : Expr) (v : Value) :
    Steady none (callee.describe setting v) := by
  unfold Expr.describe
  split
  · exact nameOf setting _
  · exact pure _

mutual

/-- Evaluating an expression declares nothing in the frames that exist. -/
theorem Exec.Steady.eval (hinvoke : Invoke.Steady invoke) (scope : List Nat) :
    (e : Expr) → Steady none (e.eval setting invoke scope)
  | .literal _ _ => pure _
  | .var id loc => (lookup setting scope id loc).bind fun _ => pure _
  | .group inner _ => Exec.Steady.eval hinvoke scope inner
  | .assign target value loc => by
    simp only [Expr.eval]
    split
    · refine (lookup setting scope _ _).bind fun x => ?_
      refine (Exec.Steady.eval hinvoke scope value).bind fun v => ?_
      exact (assign x.1 _ _).bind fun _ => pure _
    · exact fault _ _ _
  | .unary op operand loc =>
    (Exec.Steady.eval hinvoke scope operand).bind fun v => unary op v loc
  | .binary op left right loc =>
    (Exec.Steady.eval hinvoke scope left).bind fun v =>
      (Exec.Steady.eval hinvoke scope right).bind fun w => binary op v w loc
  | .call callee args loc => by
    simp only [Expr.eval]
    refine (Exec.Steady.eval hinvoke scope callee).bind fun v => ?_
    cases v with
    | func f =>
      refine (checkArity f args.length loc).bind fun _ => ?_
      exact (Exec.Steady.evalAll hinvoke scope args).bind fun vs => call hinvoke f vs loc
    | void | int | uint | bool => exact (describe callee _).bind fun _ => fault _ _ _

theorem Exec.Steady.evalAll (hinvoke : Invoke.Steady invoke) (scope : List Nat) :
    (es : List Expr) → Steady none (Expr.evalAll setting invoke scope es)
  | [] => pure _
  | e :: rest =>
    (Exec.Steady.eval hinvoke scope e).bind fun _ =>
      (Exec.Steady.evalAll hinvoke scope rest).bind fun _ => pure _

end

theorem Exec.Steady.evalOr (hinvoke : Invoke.Steady invoke) (scope : List Nat) (default : Value)
    (e : Option Expr) : Steady none (Expr.evalOr setting invoke scope default e) := by
  cases e with
  | none => exact pure _
  | some e => exact Exec.Steady.eval hinvoke scope e

mutual

/-- A statement declares names in the innermost frame of its scope, if at all. -/
theorem Exec.Steady.exec (hinvoke : Invoke.Steady invoke) (scope : List Nat) :
    (s : Stmt) → Steady scope.head? (s.exec setting invoke scope)
  | .function id params result body _ loc => by
    simp only [Stmt.exec]
    refine (note setting _).bind fun _ => (nameOf setting id).bind fun name => ?_
    exact (declare scope id _ _).bind fun _ => pure _
  | .var id type init loc => by
    simp only [Stmt.exec]
    refine (note setting _).bind fun _ => ((evalOr hinvoke scope _ init).mono _).bind fun v => ?_
    exact (declare scope id type v).bind fun _ => pure _
  | .block body loc => by
    simp only [Stmt.exec]
    refine (note setting _).bind fun _ => inFrame setting scope fun frame => ?_
    exact Exec.Steady.execAll hinvoke (frame :: scope) body
  | .conditional cond body none loc => by
    simp only [Stmt.exec]
    refine (note setting _).bind fun _ => ?_
    refine ((Exec.Steady.eval hinvoke scope cond).mono _).bind fun v => ?_
    split
    · exact Exec.Steady.exec hinvoke scope body
    · exact pure _
  | .conditional cond body (some other) loc => by
    simp only [Stmt.exec]
    refine (note setting _).bind fun _ => ?_
    refine ((Exec.Steady.eval hinvoke scope cond).mono _).bind fun v => ?_
    split
    · exact Exec.Steady.exec hinvoke scope body
    · exact Exec.Steady.exec hinvoke scope other
  | .loop cond body loc => by
    simp only [Stmt.exec]
    refine (note setting _).bind fun _ => ?_
    exact whileLoop (((Exec.Steady.eval hinvoke scope cond).mono _).map _)
      (Exec.Steady.exec hinvoke scope body) setting.budget
  | .returning value loc => by
    simp only [Stmt.exec]
    refine (note setting _).bind fun _ => ?_
    exact ((evalOr hinvoke scope _ value).mono _).bind fun v => pure _
  | .expr e loc => by
    simp only [Stmt.exec]
    refine (note setting _).bind fun _ => ?_
    exact ((Exec.Steady.eval hinvoke scope e).mono _).bind fun v => pure _

theorem Exec.Steady.execAll (hinvoke : Invoke.Steady invoke) (scope : List Nat) :
    (ss : List Stmt) → Steady scope.head? (Stmt.execAll setting invoke scope ss)
  | [] => pure _
  | s :: rest => by
    simp only [Stmt.execAll]
    refine (Exec.Steady.exec hinvoke scope s).bind fun flow => ?_
    cases flow with
    | next => exact Exec.Steady.execAll hinvoke scope rest
    | returned v => exact pure _

end

end

namespace Closure

theorem steady_bind (frame : Nat) (scope : List Nat) (params : List Param) (args : List Value) :
    Exec.Steady (some frame) (bind (frame :: scope) params args) := by
  induction params generalizing args with
  | nil => exact .pure _
  | cons p params ih =>
    cases args with
    | nil => exact .pure _
    | cons v args =>
      exact (Exec.Steady.declare (frame :: scope) p.id p.type v).bind fun _ => ih args

theorem steady_invokeWithin (setting : Setting) (room : Nat) :
    Invoke.Steady (invokeWithin setting room) := by
  induction room with
  | zero => exact fun f args loc => .fault _ _ _
  | succ room ih =>
    intro f args loc
    refine (Exec.Steady.note setting _).bind fun _ => Exec.Steady.bind ?_ fun flow => .pure _
    refine Exec.Steady.inFrame setting f.scope fun frame => ?_
    refine (steady_bind frame f.scope f.params args).bind fun _ => ?_
    refine (Exec.Steady.note setting _).bind fun _ => ?_
    exact Exec.Steady.inFrame setting _ fun inner => .execAll ih (inner :: _) f.body

end Closure

end Ember
