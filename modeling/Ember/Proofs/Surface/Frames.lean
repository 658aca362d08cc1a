import Mathlib.Data.List.Forall2
import Mathlib.Data.List.Nodup
import Ember.Proofs.Run.Leads

namespace Ember

/-- Where the frames of a machine stand among those of another, which has more of them. -/
structure Placement where
  places : List Nat
  size : Nat

namespace Placement

/-- The frame has that number in the other machine. -/
def At (w : Placement) (i i' : Nat) : Prop := w.places[i]? = some i'

/-- A frame that only the other machine has. -/
def Spare (w : Placement) (i' : Nat) : Prop := i' < w.size ∧ i' ∉ w.places

/-- Frames keep their places while further ones are added. -/
structure Grows (w w' : Placement) : Prop where
  kept : ∀ i i', w.At i i' → w'.At i i'
  size_le : w.size ≤ w'.size
  fresh : ∀ i' ∈ w'.places, i' < w.size → i' ∈ w.places

/-- Scopes in which the same frames stand in the same order, but for spare ones. -/
inductive Scope (w : Placement) : List Nat → List Nat → Prop
  | nil : Scope w [] []
  | placed {i i' : Nat} {scope scope' : List Nat} (hat : w.At i i') (hrest : Scope w scope scope') :
    Scope w (i :: scope) (i' :: scope')
  | spare {i' : Nat} {scope scope' : List Nat} (hspare : w.Spare i')
      (hrest : Scope w scope scope') :
    Scope w scope (i' :: scope')

/-- The innermost frame of the other scope is not spare. -/
def Heads (w : Placement) (scope scope' : List Nat) : Prop :=
  ∃ i i', scope.head? = some i ∧ scope'.head? = some i' ∧ w.At i i'

/-- The placement after a frame is opened in both machines. -/
def opened (w : Placement) : Placement := ⟨w.places ++ [w.size], w.size + 1⟩

/-- The placement after a frame is opened in the other machine alone. -/
def spared (w : Placement) : Placement := ⟨w.places, w.size + 1⟩

/-- Every frame in its own place. -/
def same (n : Nat) : Placement := ⟨List.range n, n⟩

section

variable {w w' w'' : Placement} {s s' : List Nat}

namespace Grows

theorem refl (w : Placement) : w.Grows w := ⟨fun _ _ h => h, Nat.le_refl _, fun _ h _ => h⟩

theorem trans (h : w.Grows w') (h' : w'.Grows w'') : w.Grows w'' where
  kept i i' hat := h'.kept i i' (h.kept i i' hat)
  size_le := Nat.le_trans h.size_le h'.size_le
  fresh i' hmem hlt := h.fresh i' (h'.fresh i' hmem (Nat.lt_of_lt_of_le hlt h.size_le)) hlt

theorem opened (w : Placement) : w.Grows w.opened where
  kept i i' hat := by
    obtain ⟨hlt, _⟩ := List.getElem?_eq_some_iff.1 hat
    unfold At Placement.opened
    rwa [List.getElem?_append_left hlt]
  size_le := Nat.le_succ _
  fresh i' hmem hlt := by
    rcases List.mem_append.1 hmem with h | h
    · exact h
    · exact absurd (List.mem_singleton.1 h) (Nat.ne_of_lt hlt)

theorem spared (w : Placement) : w.Grows w.spared := ⟨fun _ _ h => h, Nat.le_succ _, fun _ h _ => h⟩

theorem spare (h : w.Grows w') {i' : Nat} (hspare : w.Spare i') : w'.Spare i' :=
  ⟨Nat.lt_of_lt_of_le hspare.1 h.size_le, fun hmem => hspare.2 (h.fresh i' hmem hspare.1)⟩

theorem scope (h : w.Grows w') (hscope : w.Scope s s') : w'.Scope s s' := by
  induction hscope with
  | nil => exact .nil
  | placed hat _ ih => exact .placed (h.kept _ _ hat) ih
  | spare hspare _ ih => exact .spare (h.spare hspare) ih

theorem heads (h : w.Grows w') (hheads : w.Heads s s') : w'.Heads s s' := by
  obtain ⟨i, i', hi, hi', hat⟩ := hheads
  exact ⟨i, i', hi, hi', h.kept i i' hat⟩

end Grows

theorem at_opened : w.opened.At w.places.length w.size := by simp [At, opened]

theorem heads_opened : w.opened.Heads (w.places.length :: s) (w.size :: s') :=
  ⟨_, _, rfl, rfl, at_opened⟩

theorem same_at {n i : Nat} (h : i < n) : (same n).At i i := by simp [At, same, h]

theorem scope_same {n : Nat} (h : ∀ i ∈ s, i < n) : (same n).Scope s s := by
  induction s with
  | nil => exact .nil
  | cons i rest ih =>
    obtain ⟨hi, hrest⟩ := List.forall_mem_cons.1 h
    exact .placed (same_at hi) (ih hrest)

end

end Placement

/-- The same value, up to the places of the frames in which a function was declared. -/
inductive Value.Placed (w : Placement) : Value → Value → Prop
  | plain {v : Value} (h : v.IsPlain) : Placed w v v
  | print : Placed w (.func .print) (.func .print)
  | closure {f : Closure} {scope : List Nat} (h : w.Scope f.scope scope) :
    Placed w (.func (.closure f)) (.func (.closure { f with scope }))

inductive Flow.Placed (w : Placement) : Flow → Flow → Prop
  | next : Placed w .next .next
  | returned {v v' : Value} (h : v.Placed w v') : Placed w (.returned v) (.returned v')

structure Binding.Placed (w : Placement) (b b' : Binding) : Prop where
  value : b.value.Placed w b'.value
  type : b.type = b'.type

/-- The same names are bound in the same order. -/
def Frame.Placed (w : Placement) (f f' : Frame) : Prop :=
  List.Forall₂ (fun e e' => e.1 = e'.1 ∧ e.2.Placed w e'.2) f f'

/-- The frames of the first machine stand in their places in the second, in which every further
frame is empty. The machines have printed the same. -/
structure Machine.Placed (w : Placement) (m m' : Machine) : Prop where
  length_eq : w.places.length = m.frames.size
  size_eq : w.size = m'.frames.size
  lt : ∀ i' ∈ w.places, i' < w.size
  nodup : w.places.Nodup
  frames : ∀ i i', w.At i i' → (m.frameAt i).Placed w (m'.frameAt i')
  spare : ∀ i', w.Spare i' → m'.frameAt i' = []
  output : m.output = m'.output

section

variable {w w' : Placement}

namespace Value.Placed

variable {v v' : Value}

theorem grow (h : v.Placed w v') (hw : w.Grows w') : v.Placed w' v' := by
  cases h with
  | plain h => exact .plain h
  | print => exact .print
  | closure h => exact .closure (hw.scope h)

theorem word?_eq (h : v.Placed w v') : v.word? = v'.word? := by cases h <;> rfl

theorem isUnsigned_eq (h : v.Placed w v') : v.isUnsigned = v'.isUnsigned := by cases h <;> rfl

theorem isTruthy_eq (h : v.Placed w v') : v.isTruthy = v'.isTruthy := by cases h <;> rfl

theorem negate?_eq (h : v.Placed w v') : v.negate? = v'.negate? := by cases h <;> rfl

theorem render_eq (h : v.Placed w v') : v.render = v'.render := by cases h <;> rfl

theorem exitCode_eq (h : v.Placed w v') : v.exitCode = v'.exitCode := by
  rw [exitCode, exitCode, h.word?_eq]

theorem narrow (h : v.Placed w v') (type : Datatype) :
    (v.narrow type).Placed w (v'.narrow type) := by
  cases h with
  | plain h => exact .plain ((Value.narrow_eq_or_isPlain type v).2 h)
  | print => exact .print
  | closure h => exact .closure h

end Value.Placed

theorem Closure.placed_resultOf {f : Closure} {scope : List Nat} {flow flow' : Flow}
    (h : flow.Placed w flow') :
    (f.resultOf flow).Placed w (Closure.resultOf { f with scope } flow') := by
  cases h with
  | next =>
    simp only [resultOf]
    split
    · exact .plain trivial
    · exact .plain (Value.isPlain_zero _)
  | returned hv =>
    simp only [resultOf]
    split
    · exact .plain trivial
    · exact hv.narrow _

namespace Frame.Placed

variable {f f' : Frame}

theorem grow (h : f.Placed w f') (hw : w.Grows w') : f.Placed w' f' :=
  List.Forall₂.imp (fun _ _ he => ⟨he.1, he.2.value.grow hw, he.2.type⟩) h

theorem find? (h : f.Placed w f') (id : Int) :
    Option.Rel (Binding.Placed w) (f.find? id) (f'.find? id) := by
  induction h with
  | nil => exact .none
  | @cons e e' f f' he _ ih =>
    obtain ⟨key, b⟩ := e
    obtain ⟨key', b'⟩ := e'
    obtain ⟨rfl, hb⟩ := he
    rw [Frame.find?_cons, Frame.find?_cons]
    split
    · exact .some hb
    · exact ih

theorem all (h : f.Placed w f') : f.All fun v => ∃ v', v.Placed w v' := by
  induction h with
  | nil => exact List.forall_mem_nil _
  | cons he _ ih => exact List.forall_mem_cons.2 ⟨⟨_, he.2.value⟩, ih⟩

theorem declare (h : f.Placed w f') (id : Int) {b b' : Binding} (hb : b.Placed w b') :
    (f.declare id b).Placed w (f'.declare id b') := by
  refine .cons ⟨rfl, hb⟩ ?_
  induction h with
  | nil => exact .nil
  | @cons e e' f f' he _ ih =>
    simp only [List.filter_cons, he.1]
    split
    · exact .cons he ih
    · exact ih

theorem assign (h : f.Placed w f') (id : Int) {v v' : Value} (hv : v.Placed w v') :
    (f.assign id v).Placed w (f'.assign id v') := by
  refine List.forall₂_map_left_iff.2 (List.forall₂_map_right_iff.2 (h.imp fun e e' he => ?_))
  obtain ⟨key, b⟩ := e
  obtain ⟨key', b'⟩ := e'
  obtain ⟨rfl, hb⟩ := he
  dsimp only
  split
  · exact ⟨rfl, hv, hb.type⟩
  · exact ⟨rfl, hb⟩

end Frame.Placed

namespace Machine.Placed

variable {m m' : Machine}

/-- What is told of a run is of no account. -/
theorem tell (h : m.Placed w m') {n n' : Machine} (hframes : n.frames = m.frames)
    (hframes' : n'.frames = m'.frames) (houtput : n.output = n'.output) : n.Placed w n' := by
  have hat : ∀ i, n.frameAt i = m.frameAt i := fun i => by rw [frameAt, frameAt, hframes]
  have hat' : ∀ i, n'.frameAt i = m'.frameAt i := fun i => by rw [frameAt, frameAt, hframes']
  refine ⟨hframes ▸ h.length_eq, hframes' ▸ h.size_eq, h.lt, h.nodup, fun i i' hi => ?_,
    fun i' hi' => ?_, houtput⟩
  · rw [hat, hat']
    exact h.frames i i' hi
  · rw [hat']
    exact h.spare i' hi'

/-- Frames in the same place change alike. -/
theorem modify (h : m.Placed w m') {i i' : Nat} (hat : w.At i i') {g g' : Frame → Frame}
    (hg : ∀ f f' : Frame, f.Placed w f' → (g f).Placed w (g' f')) :
    Machine.Placed w { m with frames := m.frames.modify i g }
      { m' with frames := m'.frames.modify i' g' } := by
  obtain ⟨hlt, hget⟩ := List.getElem?_eq_some_iff.1 hat
  have hmem : i' ∈ w.places := hget ▸ List.getElem_mem hlt
  refine ⟨by simpa using h.length_eq, by simpa using h.size_eq, h.lt, h.nodup, fun j j' hj => ?_,
    fun j' hj' => ?_, h.output⟩
  · have hiff : i = j ↔ i' = j' := by
      obtain ⟨hltj, hgetj⟩ := List.getElem?_eq_some_iff.1 hj
      rw [← hget, ← hgetj]
      exact (h.nodup.getElem_inj_iff).symm
    have hsize : i < m.frames.size := h.length_eq ▸ hlt
    have hsize' : i' < m'.frames.size := h.size_eq ▸ h.lt i' hmem
    rw [frameAt_modify, frameAt_modify]
    by_cases heq : i = j
    · rw [if_pos ⟨heq, hsize⟩, if_pos ⟨hiff.1 heq, hsize'⟩]
      exact hg _ _ (h.frames j j' hj)
    · rw [if_neg fun hand => heq hand.1, if_neg fun hand => heq (hiff.2 hand.1)]
      exact h.frames j j' hj
  · rw [frameAt_modify, if_neg]
    · exact h.spare j' hj'
    · rintro ⟨rfl, -⟩
      exact hj'.2 hmem

theorem opened (h : m.Placed w m') : Machine.Placed w.opened
    { m with frames := m.frames.push [] } { m' with frames := m'.frames.push [] } := by
  have hgrows := Placement.Grows.opened w
  refine ⟨by simp [Placement.opened, h.length_eq], by simp [Placement.opened, h.size_eq],
    fun i' hi' => ?_, ?_, fun i i' hi => ?_, fun i' hi' => ?_, h.output⟩
  · rcases List.mem_append.1 hi' with hold | hnew
    · exact Nat.lt_succ_of_lt (h.lt i' hold)
    · rw [List.mem_singleton.1 hnew]
      exact Nat.lt_succ_self _
  · refine List.nodup_append.2 ⟨h.nodup, by simp, fun i' hold j hnew => ?_⟩
    rw [List.mem_singleton.1 hnew]
    exact Nat.ne_of_lt (h.lt i' hold)
  · rw [frameAt_push, frameAt_push]
    by_cases hlt : i < w.places.length
    · have hat : w.At i i' := by
        unfold Placement.At Placement.opened at hi
        rwa [List.getElem?_append_left hlt] at hi
      exact (h.frames i i' hat).grow hgrows
    · have hbeyond : m.frames.size ≤ i := by
        rw [← h.length_eq]
        omega
      have hplace : i' = w.size := by
        unfold Placement.At Placement.opened at hi
        rw [List.getElem?_append_right (Nat.le_of_not_lt hlt), List.getElem?_singleton] at hi
        split at hi
        · exact (Option.some.inj hi).symm
        · cases hi
      rw [frameAt_of_le hbeyond, frameAt_of_le (h.size_eq ▸ hplace ▸ Nat.le_refl _)]
      exact .nil
  · rw [frameAt_push]
    obtain ⟨hlt, hnot⟩ := hi'
    by_cases hold : i' < w.size
    · exact h.spare i' ⟨hold, fun hmem => hnot (List.mem_append_left _ hmem)⟩
    · refine frameAt_of_le ?_
      rw [← h.size_eq]
      omega

theorem spared (h : m.Placed w m') :
    Machine.Placed w.spared m { m' with frames := m'.frames.push [] } := by
  have hgrows := Placement.Grows.spared w
  refine ⟨h.length_eq, by simp [Placement.spared, h.size_eq],
    fun i' hi' => Nat.lt_succ_of_lt (h.lt i' hi'), h.nodup, fun i i' hi => ?_, fun i' hi' => ?_,
    h.output⟩
  · rw [frameAt_push]
    exact (h.frames i i' hi).grow hgrows
  · rw [frameAt_push]
    obtain ⟨hlt, hnot⟩ := hi'
    by_cases hold : i' < w.size
    · exact h.spare i' ⟨hold, hnot⟩
    · refine frameAt_of_le ?_
      rw [← h.size_eq]
      omega

/-- A name is found in the same place, since nothing is bound in a spare frame. -/
theorem findIn (h : m.Placed w m') {scope scope' : List Nat} (hscope : w.Scope scope scope')
    (id : Int) :
    Option.Rel (fun x x' => w.At x.1 x'.1 ∧ x.2.Placed w x'.2) (Exec.findIn m.frames id scope)
      (Exec.findIn m'.frames id scope') := by
  induction hscope with
  | nil => exact .none
  | @placed i i' _ _ hat _ ih =>
    have hfind := (h.frames i i' hat).find? id
    simp only [Exec.findIn]
    simp only [frameAt] at hfind
    generalize (m.frames[i]?.getD []).find? id = x,
      (m'.frames[i']?.getD []).find? id = x' at hfind ⊢
    cases hfind with
    | none => exact ih
    | some hb => exact .some ⟨hat, hb⟩
  | @spare i' _ _ hspare _ ih =>
    have hempty := h.spare i' hspare
    rw [frameAt] at hempty
    rw [Exec.findIn.eq_def _ _ (i' :: _)]
    simp only [hempty, Frame.find?_nil]
    exact ih

end Machine.Placed

end

/-- A function was declared in frames that are there. -/
def Value.Within (size : Nat) (v : Value) : Prop :=
  ∀ f, v = .func (.closure f) → ∀ i ∈ f.scope, i < size

/-- The functions that the machine holds were declared in frames that are there. -/
def Machine.Closed (m : Machine) : Prop := ∀ f ∈ m.frames, f.All (Value.Within m.frames.size)

theorem Value.Within.placed_same {size : Nat} {v : Value} (h : v.Within size) :
    v.Placed (.same size) v := by
  cases v with
  | void | int | uint | bool => exact .plain trivial
  | func f =>
    cases f with
    | print => exact .print
    | closure f => exact .closure (Placement.scope_same (h f rfl))

theorem Machine.Closed.placed_same {m : Machine} (h : m.Closed) :
    m.Placed (.same m.frames.size) m := by
  refine ⟨by simp [Placement.same], rfl, by simp [Placement.same], List.nodup_range,
    fun i i' hi => ?_, fun i' hi' => ?_, rfl⟩
  · obtain rfl : i = i' := by
      have hget := List.getElem?_eq_some_iff.1 hi
      simpa [Placement.same] using hget.2
    have hall := Machine.forall_getD h (List.forall_mem_nil _) i
    exact List.forall₂_same.2 fun e he => ⟨rfl, (hall e he).placed_same, rfl⟩
  · exact absurd (List.mem_range.2 hi'.1) hi'.2

/-- What stands in a scope stands in a frame that is there. -/
theorem Machine.Placed.lt_of_scope {w : Placement} {m m' : Machine} (h : m.Placed w m')
    {s s' : List Nat} (hscope : w.Scope s s') :
    (∀ i ∈ s, i < m.frames.size) ∧ ∀ i' ∈ s', i' < m'.frames.size := by
  induction hscope with
  | nil => exact ⟨List.forall_mem_nil _, List.forall_mem_nil _⟩
  | placed hat _ ih =>
    obtain ⟨hlt, hget⟩ := List.getElem?_eq_some_iff.1 hat
    refine ⟨List.forall_mem_cons.2 ⟨h.length_eq ▸ hlt, ih.1⟩, List.forall_mem_cons.2 ⟨?_, ih.2⟩⟩
    exact h.size_eq ▸ h.lt _ (hget ▸ List.getElem_mem hlt)
  | spare hspare _ ih =>
    exact ⟨ih.1, List.forall_mem_cons.2 ⟨h.size_eq ▸ hspare.1, ih.2⟩⟩

theorem Machine.Placed.within {w : Placement} {m m' : Machine} (h : m.Placed w m') {v v' : Value}
    (hv : v.Placed w v') : v.Within m.frames.size := by
  rintro f rfl
  cases hv with
  | plain hplain => exact hplain.elim
  | closure hscope => exact (h.lt_of_scope hscope).1

/-- Whatever stands beside another machine is closed. -/
theorem Machine.Placed.closed {w : Placement} {m m' : Machine} (h : m.Placed w m') : m.Closed := by
  intro f hf e he
  obtain ⟨i, hi, rfl⟩ := Array.getElem_of_mem hf
  have hlt : i < w.places.length := h.length_eq ▸ hi
  have hframe := h.frames i w.places[i] (List.getElem?_eq_getElem hlt)
  simp only [frameAt, Array.getElem?_eq_getElem hi, Option.getD_some] at hframe
  obtain ⟨v', hv⟩ := hframe.all e he
  exact h.within hv

end Ember
