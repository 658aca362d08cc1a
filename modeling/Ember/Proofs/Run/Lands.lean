import Ember.Proofs.Run.Frames

namespace Ember

/-- The run stopped since something was called or assigned that cannot be, or with the wrong
number of arguments. -/
def Halt.IsMisuse (h : Halt) : Prop :=
  ∃ d, h = .fault d ∧
    (d.code = .invalidAssignTarget ∨ d.code = .arityMismatch ∨ d.code = .notCallable)

/-- Only a fault is a misuse. -/
theorem Halt.not_isMisuse {h : Halt} (hh : ∀ d, h ≠ .fault d) : ¬h.IsMisuse :=
  fun ⟨d, hd, _⟩ => hh d hd

namespace Exec

variable {α β : Type}

/-- From the machine `m` the computation ends as `post` says, or stops early without misuse. -/
def Lands (p : Exec α) (m : Machine) (post : α → Machine → Prop) : Prop :=
  match p m with
  | .ok a m' => post a m'
  | .error h _ => ¬h.IsMisuse

namespace Lands

variable {m : Machine} {p : Exec α} {post : α → Machine → Prop} {setting : Setting}

theorem of_ok {a : α} {m' : Machine} (h : Lands p m post) (hrun : p m = .ok a m') :
    post a m' := by
  unfold Lands at h
  rw [hrun] at h
  exact h

theorem pure {a : α} (h : post a m) : Lands (Pure.pure a : Exec α) m post := h

theorem mono {post' : α → Machine → Prop} (h : Lands p m post)
    (himp : ∀ a m', post a m' → post' a m') : Lands p m post' := by
  unfold Lands at h ⊢
  cases hrun : p m with
  | ok a m' =>
    rw [hrun] at h
    exact himp a m' h
  | error e m' =>
    rw [hrun] at h
    exact h

theorem and {post' : α → Machine → Prop} (h : Lands p m post) (h' : Lands p m post') :
    Lands p m fun a m' => post a m' ∧ post' a m' := by
  unfold Lands at h h' ⊢
  cases hrun : p m with
  | ok a m' =>
    rw [hrun] at h h'
    exact ⟨h, h'⟩
  | error e m' =>
    rw [hrun] at h
    exact h

theorem bind {k : α → Exec β} {post' : β → Machine → Prop} (h : Lands p m post)
    (hk : ∀ a m', post a m' → Lands (k a) m' post') : Lands (p >>= k) m post' := by
  unfold Lands at h ⊢
  cases hrun : p m with
  | ok a m' =>
    have hbind : (p >>= k) m = k a m' := by simp only [Bind.bind, EStateM.bind, hrun]
    rw [hrun] at h
    rw [hbind]
    exact hk a m' h
  | error e m' =>
    have hbind : (p >>= k) m = .error e m' := by simp only [Bind.bind, EStateM.bind, hrun]
    rw [hrun] at h
    rw [hbind]
    exact h

theorem map {g : α → β} {post' : β → Machine → Prop} (h : Lands p m post)
    (himp : ∀ a m', post a m' → post' (g a) m') : Lands (g <$> p) m post' := by
  rw [map_eq_pure_bind]
  exact h.bind fun a m' ha => pure (himp a m' ha)

theorem throw {h : Halt} (hh : ¬h.IsMisuse) :
    Lands (MonadExcept.throw h : Exec α) m post := hh

theorem fault {code : Code} (hcode : code = .undefinedVariable ∨ code = .invalidOperand ∨
    code = .divisionByZero ∨ code = .callStackOverflow) (loc : Location)
    (args : List (String × Argument)) : Lands (Exec.fault code loc args : Exec α) m post := by
  rintro ⟨d, hd, hmisuse⟩
  cases hd
  rcases hcode with rfl | rfl | rfl | rfl <;> simp at hmisuse

theorem note (e : Event) :
    Lands (Exec.note setting e) m fun _ m' => ∃ events, m' = { m with events } := by
  unfold Exec.note
  split
  · exact ⟨_, rfl⟩
  · exact ⟨m.events, rfl⟩

theorem nameOf (id : Int) : Lands (Exec.nameOf setting id) m fun _ m' => m' = m := by
  unfold Exec.nameOf
  split
  · exact pure rfl
  · exact throw (Halt.not_isMisuse nofun)

theorem lookup (scope : List Nat) (id : Int) (loc : Location) :
    Lands (Exec.lookup setting scope id loc) m fun x m' =>
      m' = m ∧ findIn m.frames id scope = some x := by
  unfold Lands
  rw [Folds.lookup_eq]
  cases findIn m.frames id scope with
  | some x => exact ⟨rfl, rfl⟩
  | none =>
    have hmiss : Lands (do
        Exec.fault .undefinedVariable loc [("name", .text (← Exec.nameOf setting id))]) m
        fun (x : Nat × Binding) m' => m' = m ∧ none = some x :=
      (nameOf id).bind fun _ _ _ => fault (.inl rfl) _ _
    exact hmiss

theorem writeLine (text : String) :
    Lands (Exec.writeLine setting text) m fun _ m' => ∃ output, m' = { m with output } := by
  unfold Exec.writeLine
  split
  · exact throw (Halt.not_isMisuse nofun)
  · exact ⟨_, rfl⟩

theorem declare (frame : Nat) (scope : List Nat) (id : Int) (type : Datatype) (value : Value) :
    Lands (Exec.declare (frame :: scope) id type value) m fun _ m' =>
      m' = { m with
        frames := m.frames.modify frame (·.declare id ⟨value.narrow type, type⟩) } := rfl

theorem assign (frame : Nat) (id : Int) (value : Value) :
    Lands (Exec.assign frame id value) m fun _ m' =>
      m' = { m with frames := m.frames.modify frame (·.assign id value) } := rfl

theorem unary (op : UnaryOp) (v : Value) (loc : Location) :
    Lands (Value.unary op v loc) m fun _ m' => m' = m := by
  unfold Value.unary
  split
  · exact pure rfl
  · split
    · exact pure rfl
    · exact fault (.inr (.inl rfl)) _ _

theorem binary (op : BinaryOp) (v w : Value) (loc : Location) :
    Lands (Value.binary op v w loc) m fun _ m' => m' = m := by
  unfold Value.binary
  split
  · split
    · exact fault (.inr (.inr (.inl rfl))) _ _
    · dsimp only
      split
      · exact pure rfl
      · exact throw (Halt.not_isMisuse nofun)
      · exact throw (Halt.not_isMisuse nofun)
  · exact fault (.inr (.inl rfl)) _ _

theorem leaving (setting : Setting) (h : Lands p m post)
    (hevents : ∀ a m' events, post a m' → post a { m' with events }) :
    Lands (Folds.leaving setting p) m post := by
  unfold Lands Folds.leaving
  unfold Lands at h
  cases hrun : p m with
  | ok a m' =>
    simp only [hrun] at h
    have hpop : Lands (do Exec.note setting .pop; return a) m' post := by
      refine (note .pop).bind ?_
      rintro _ _ ⟨events, rfl⟩
      exact pure (hevents a m' events h)
    exact hpop
  | error e m' =>
    simp only [hrun] at h
    have hpop : Lands (do Exec.note setting .pop; MonadExcept.throw e : Exec α) m' post :=
      (note .pop).bind fun _ _ _ => throw h
    exact hpop

/-- What runs in a new frame. Telling of it is no change that matters. -/
theorem inFrame {scope : List Nat} {body : List Nat → Exec α}
    (hbody : ∀ events, Lands (body (m.frames.size :: scope))
      { m with frames := m.frames.push [], events } post)
    (hevents : ∀ a m' events, post a m' → post a { m' with events }) :
    Lands (Exec.inFrame setting scope body) m post := by
  rw [Folds.inFrame_eq]
  refine (note .push).bind ?_
  rintro _ _ ⟨events, rfl⟩
  exact leaving setting (hbody events) hevents

/-- A loop keeps what its test and its body keep. -/
theorem whileLoop {test : Exec Bool} {body : Exec Flow} {post : Flow → Machine → Prop}
    (htest : ∀ m, post .next m → Lands test m fun _ => post .next)
    (hbody : ∀ m, post .next m → Lands body m post) (rounds : Nat) (hm : post .next m) :
    Lands (Exec.whileLoop test body rounds) m post := by
  induction rounds generalizing m with
  | zero => exact throw (Halt.not_isMisuse nofun)
  | succ rounds ih =>
    refine (htest m hm).bind fun holds m' hm' => ?_
    split
    · refine (hbody m' hm').bind fun flow m'' hflow => ?_
      cases flow with
      | next => exact ih hflow
      | returned v => exact pure hflow
    · exact pure hm'

end Lands

end Exec

end Ember
