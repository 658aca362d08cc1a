import Ember.Proofs.Run.Frames

namespace Ember

open Exec

namespace Event

/-- How many frames are left open after these events; `none` if more are left than were opened. -/
def nest : Nat → List Event → Option Nat
  | depth, [] => some depth
  | depth, .push :: rest => nest (depth + 1) rest
  | 0, .pop :: _ => none
  | depth + 1, .pop :: rest => nest depth rest
  | depth, .call _ :: rest | depth, .exec _ :: rest => nest depth rest

/-- Every frame that is opened is left, and none that is not open. -/
def Balanced (trace : List Event) : Prop := nest 0 trace = some 0

instance (trace : List Event) : Decidable (Balanced trace) := inferInstanceAs (Decidable (_ = _))

/-- Events, the latest first, that leave as many frames open as there were. -/
def Neutral (told : List Event) : Prop :=
  ∀ depth rest, nest depth (told.reverse ++ rest) = nest depth rest

theorem neutral_nil : Neutral [] := fun _ _ => rfl

theorem Neutral.append {told more : List Event} (h : Neutral told) (hmore : Neutral more) :
    Neutral (more ++ told) := by
  intro depth rest
  rw [List.reverse_append, List.append_assoc, h, hmore]

theorem neutral_call (name : String) : Neutral [call name] := by
  intro depth rest
  cases depth <;> rfl

theorem neutral_exec (kind : NodeKind) : Neutral [exec kind] := by
  intro depth rest
  cases depth <;> rfl

/-- What is told inside a frame, with the frame. -/
theorem Neutral.framed {told : List Event} (h : Neutral told) : Neutral (pop :: told ++ [push]) := by
  intro depth rest
  have hopen : nest depth (push :: (told.reverse ++ pop :: rest)) =
      nest (depth + 1) (told.reverse ++ pop :: rest) := by
    cases depth <;> rfl
  simp only [List.cons_append, List.reverse_cons, List.reverse_append, List.reverse_nil,
    List.nil_append, List.append_assoc, hopen, h (depth + 1)]
  rfl

end Event

namespace Machine

/-- The machine after an event is told. -/
def tell (m : Machine) (setting : Setting) (e : Event) : Machine :=
  if setting.traced then { m with events := e :: m.events } else m

@[simp] theorem frames_tell (m : Machine) (setting : Setting) (e : Event) :
    (m.tell setting e).frames = m.frames := by
  unfold tell
  split <;> rfl

@[simp] theorem output_tell (m : Machine) (setting : Setting) (e : Event) :
    (m.tell setting e).output = m.output := by
  unfold tell
  split <;> rfl

/-- The machine after a frame is opened. -/
def opened (m : Machine) (setting : Setting) : Machine :=
  { m.tell setting .push with frames := m.frames.push [] }

/-- What is bound stays bound, and frames are left as they were opened. -/
structure Leads (m m' : Machine) : Prop where
  told : ∃ told, m'.events = told ++ m.events ∧ Event.Neutral told
  bound : ∀ frame id, (m.typeAt frame id).isSome → (m'.typeAt frame id).isSome

namespace Leads

variable {m m' m'' : Machine}

theorem refl (m : Machine) : m.Leads m := ⟨⟨[], rfl, Event.neutral_nil⟩, fun _ _ h => h⟩

theorem trans (h : m.Leads m') (h' : m'.Leads m'') : m.Leads m'' := by
  obtain ⟨told, htold, hneutral⟩ := h.told
  obtain ⟨more, hmore, hneutral'⟩ := h'.told
  refine ⟨⟨more ++ told, ?_, hneutral.append hneutral'⟩, fun frame id hid => ?_⟩
  · rw [hmore, htold, List.append_assoc]
  · exact h'.bound frame id (h.bound frame id hid)

theorem tell (setting : Setting) {e : Event} (he : Event.Neutral [e]) (m : Machine) :
    m.Leads (m.tell setting e) := by
  unfold Machine.tell
  split
  · exact ⟨⟨[e], rfl, he⟩, fun _ _ h => h⟩
  · exact refl m

theorem write (m : Machine) (output : String) : m.Leads { m with output } :=
  ⟨⟨[], rfl, Event.neutral_nil⟩, fun _ _ h => h⟩

theorem declare (m : Machine) (frame : Nat) (id : Int) (b : Binding) :
    m.Leads { m with frames := m.frames.modify frame (·.declare id b) } := by
  refine ⟨⟨[], rfl, Event.neutral_nil⟩, fun frame' id' h => ?_⟩
  simp only [typeAt, frameAt_modify, Option.isSome_map] at h ⊢
  split
  · rw [Frame.find?_declare]
    split
    · rfl
    · exact h
  · exact h

theorem assign (m : Machine) (frame : Nat) (id : Int) (value : Value) :
    m.Leads { m with frames := m.frames.modify frame (·.assign id value) } := by
  refine ⟨⟨[], rfl, Event.neutral_nil⟩, fun frame' id' h => ?_⟩
  rw [(Evolves.assign m frame id value).typeAt_eq frame' ?_ nofun]
  · exact h
  · obtain ⟨type, htype⟩ := Option.isSome_iff_exists.1 h
    obtain ⟨b, hb, _⟩ := Option.map_eq_some_iff.1 htype
    exact lt_of_find? hb

/-- What runs in a frame of its own, from where it is opened to where it is left. -/
theorem framed (setting : Setting) (h : (m.opened setting).Leads m') :
    m.Leads (m'.tell setting .pop) := by
  obtain ⟨told, htold, hneutral⟩ := h.told
  refine ⟨?_, fun frame id hid => ?_⟩
  · unfold Machine.tell
    unfold opened Machine.tell at htold
    split
    · rename_i htraced
      simp only [htraced, if_true] at htold
      exact ⟨.pop :: told ++ [.push], by simp [htold], hneutral.framed⟩
    · rename_i htraced
      simp only [htraced] at htold
      exact ⟨told, htold, hneutral⟩
  · have hopened : (m.opened setting).typeAt frame id = m.typeAt frame id := by
      have hframe : (m.opened setting).frameAt frame = m.frameAt frame := frameAt_push m frame
      rw [typeAt, hframe]
      rfl
    have hlast : (m'.tell setting .pop).typeAt frame id = m'.typeAt frame id := by
      simp only [typeAt, frameAt, frames_tell]
    rw [hlast]
    exact h.bound frame id (hopened ▸ hid)

end Leads

end Machine

theorem Exec.note_run (setting : Setting) (e : Event) (m : Machine) :
    note setting e m = .ok () (m.tell setting e) := by
  unfold note Machine.tell
  split <;> rfl

theorem Exec.inFrame_run {α : Type} (setting : Setting) (scope : List Nat)
    (body : List Nat → Exec α) (m : Machine) :
    inFrame setting scope body m =
      match body (m.frames.size :: scope) (m.opened setting) with
      | .ok a m' => .ok a (m'.tell setting .pop)
      | .error h m' => .error h (m'.tell setting .pop) := by
  rw [Folds.inFrame_eq]
  have hpush := note_run setting .push m
  have henter : Folds.enter (m.tell setting .push) = .ok m.frames.size (m.opened setting) := by
    simp [Folds.enter, Machine.opened]
  simp only [Bind.bind, EStateM.bind, hpush, henter, Folds.leaving]
  cases body (m.frames.size :: scope) (m.opened setting) with
  | ok a m' =>
    simp only [note_run]
    rfl
  | error h m' =>
    simp only [note_run]
    rfl

/-- However the computation ends, what is bound stays bound, and frames are left as they were
opened. -/
def Exec.Leads {α : Type} (p : Exec α) : Prop := ∀ m : Machine, m.Leads (p.final m)

namespace Exec.Leads

variable {α β : Type} {p : Exec α}

theorem pure (a : α) : Leads (Pure.pure a : Exec α) := fun m => .refl m

theorem throw (h : Halt) : Leads (MonadExcept.throw h : Exec α) := fun m => .refl m

theorem fault (code : Code) (loc : Location) (args : List (String × Argument)) :
    Leads (Exec.fault code loc args : Exec α) := throw _

theorem bind {k : α → Exec β} (hp : p.Leads) (hk : ∀ a, (k a).Leads) : (p >>= k).Leads := by
  intro m
  have hfirst := hp m
  cases hrun : p m with
  | ok a m' =>
    rw [final_of_ok hrun] at hfirst
    rw [final_bind_of_ok hrun]
    exact hfirst.trans (hk a m')
  | error e m' =>
    rw [final_bind_of_error hrun]
    simpa only [final, hrun] using hfirst

theorem note (setting : Setting) {e : Event} (he : Event.Neutral [e]) :
    (Exec.note setting e).Leads := by
  intro m
  rw [final_of_ok (note_run setting e m)]
  exact .tell setting he m

theorem nameOf (setting : Setting) (id : Int) : (Exec.nameOf setting id).Leads := by
  unfold Exec.nameOf
  split
  · exact pure _
  · exact throw _

theorem writeLine (setting : Setting) (text : String) : (Exec.writeLine setting text).Leads := by
  unfold Exec.writeLine
  split
  · exact throw _
  · exact fun m => .write m _

theorem lookup (setting : Setting) (scope : List Nat) (id : Int) (loc : Location) :
    (Exec.lookup setting scope id loc).Leads := by
  intro m
  have hmiss : Leads (do
      Exec.fault .undefinedVariable loc [("name", .text (← Exec.nameOf setting id))] :
        Exec (Nat × Binding)) := (nameOf setting id).bind fun _ => fault _ _ _
  unfold final
  rw [Folds.lookup_eq]
  cases Exec.findIn m.frames id scope with
  | some x => exact .refl m
  | none => exact hmiss m

theorem declare (scope : List Nat) (id : Int) (type : Datatype) (value : Value) :
    (Exec.declare scope id type value).Leads := by
  intro m
  cases scope with
  | nil => exact .refl m
  | cons frame rest => exact .declare m frame id _

theorem assign (frame : Nat) (id : Int) (value : Value) : (Exec.assign frame id value).Leads :=
  fun m => .assign m frame id value

theorem unary (op : UnaryOp) (v : Value) (loc : Location) : (Value.unary op v loc).Leads := by
  unfold Value.unary
  split
  · exact pure _
  · split
    · exact pure _
    · exact fault _ _ _

theorem binary (op : BinaryOp) (v w : Value) (loc : Location) : (Value.binary op v w loc).Leads := by
  unfold Value.binary
  split
  · split
    · exact fault _ _ _
    · dsimp only
      split
      · exact pure _
      · exact throw _
      · exact throw _
  · exact fault _ _ _

theorem checkArity (f : Callable) (actual : Nat) (loc : Location) :
    (f.checkArity actual loc).Leads := by
  unfold Callable.checkArity
  split
  · exact pure _
  · split
    · exact pure _
    · exact fault _ _ _

theorem describe (setting : Setting) (callee : Expr) (v : Value) :
    (callee.describe setting v).Leads := by
  unfold Expr.describe
  split
  · exact nameOf setting _
  · exact pure _

theorem bindParams (scope : List Nat) (params : List Param) (args : List Value) :
    (Closure.bind scope params args).Leads := by
  induction params generalizing args with
  | nil => exact pure _
  | cons p params ih =>
    cases args with
    | nil => exact pure _
    | cons v args => exact (declare scope p.id p.type v).bind fun _ => ih args

end Exec.Leads

end Ember
