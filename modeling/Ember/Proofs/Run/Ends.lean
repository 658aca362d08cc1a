import Ember.Proofs.Run.Course
import Ember.Proofs.Run.Lands

namespace Ember

/-- The least signed word is divided by -1, which has no signed result. -/
def Moment.Overflows : Moment → Prop
  | .applied op left right =>
    op = .div ∧ left.isUnsigned = false ∧ right.isUnsigned = false ∧
      left.word? = some Int64.minValue ∧ right.word? = some (-1)
  | .point _ => False

instance : (x : Moment) → Decidable x.Overflows
  | .applied op left right =>
    inferInstanceAs (Decidable (op = .div ∧ left.isUnsigned = false ∧ right.isUnsigned = false ∧
      left.word? = some Int64.minValue ∧ right.word? = some (-1)))
  | .point _ => inferInstanceAs (Decidable False)

open Course

namespace Exec

variable {α β : Type}

/-- If the computation ends, and no division overflows in its course, it ends as `post` says. -/
def Ends (p : Exec α) (c : Course) (m : Machine) (post : α → Machine → Prop) : Prop :=
  ∀ a m', p m = .ok a m' → (∀ x ∈ c m, ¬x.Overflows) → post a m'

theorem bind_eq_ok {p : Exec α} {k : α → Exec β} {m m'' : Machine} {b : β}
    (h : (p >>= k) m = .ok b m'') : ∃ a m', p m = .ok a m' ∧ k a m' = .ok b m'' := by
  simp only [Bind.bind, EStateM.bind] at h
  cases hrun : p m with
  | ok a m' =>
    rw [hrun] at h
    exact ⟨a, m', rfl, h⟩
  | error e m' =>
    rw [hrun] at h
    cases h

namespace Ends

variable {p : Exec α} {c : Course} {m : Machine} {post : α → Machine → Prop} {setting : Setting}

theorem of_lands (h : p.Lands m post) : p.Ends c m post := fun _ _ hrun _ => h.of_ok hrun

/-- What is known however the computation goes on holds as well. -/
theorem and_lands {post' : α → Machine → Prop} (h : p.Lands m post) (h' : p.Ends c m post') :
    p.Ends c m fun a m' => post a m' ∧ post' a m' :=
  fun a m' hrun havoid => ⟨h.of_ok hrun, h' a m' hrun havoid⟩

theorem and_ran (h : p.Ends c m post) : p.Ends c m fun a m' => p m = .ok a m' ∧ post a m' :=
  fun a m' hrun havoid => ⟨hrun, h a m' hrun havoid⟩

theorem pure {a : α} (h : post a m) : Ends (Pure.pure a : Exec α) c m post :=
  of_lands (Lands.pure h)

theorem mono {post' : α → Machine → Prop} (h : p.Ends c m post)
    (himp : ∀ a m', post a m' → post' a m') : p.Ends c m post' :=
  fun a m' hrun havoid => himp a m' (h a m' hrun havoid)

theorem entering (h : p.Ends c m post) : p.Ends (entering c) m post :=
  fun a m' hrun havoid => h a m' hrun fun x hx => havoid x (List.mem_cons_of_mem _ hx)

theorem bind {k : α → Exec β} {d : α → Course} {post : β → Machine → Prop}
    (h : p.Ends c m fun a m' => (k a).Ends (d a) m' post) :
    (p >>= k).Ends (c.andThen p d) m post := by
  intro b m'' hrun havoid
  obtain ⟨a, m', hp, hk⟩ := bind_eq_ok hrun
  have hcourse : (c.andThen p d) m = c m ++ d a m' := by simp only [andThen, hp]
  rw [hcourse] at havoid
  exact h a m' hp (fun x hx => havoid x (List.mem_append_left _ hx)) b m'' hk
    fun x hx => havoid x (List.mem_append_right _ hx)

/-- What follows comes by no moment. -/
theorem bind_last {k : α → Exec β} {post : β → Machine → Prop}
    (h : p.Ends c m fun a m' => (k a).Ends nothing m' post) : (p >>= k).Ends c m post := by
  intro b m'' hrun havoid
  obtain ⟨a, m', hp, hk⟩ := bind_eq_ok hrun
  exact h a m' hp havoid b m'' hk fun x hx => nomatch hx

theorem map {g : α → β} {post : β → Machine → Prop}
    (h : p.Ends c m fun a m' => post (g a) m') : (g <$> p).Ends c m post := by
  rw [map_eq_pure_bind]
  exact bind_last (h.mono fun _ _ => pure)

theorem after {k : α → Exec β} {d : α → Course} {post : β → Machine → Prop}
    {between : α → Machine → Prop} (hp : p.Lands m between)
    (h : ∀ a m', between a m' → (k a).Ends (d a) m' post) :
    (p >>= k).Ends (after p d) m post :=
  bind ((of_lands hp).mono h)

theorem note {e : Event} {k : Unit → Exec β} {d : Unit → Course} {post : β → Machine → Prop}
    (h : ∀ events, (k ()).Ends (d ()) { m with events } post) :
    (Exec.note setting e >>= k).Ends (Course.after (Exec.note setting e) d) m post := by
  refine after (Lands.note e) ?_
  rintro _ _ ⟨events, rfl⟩
  exact h events

/-- What runs in a new frame. Telling of it is no change that matters. -/
theorem inFrame {scope : List Nat} {body : List Nat → Exec α} {d : List Nat → Course}
    (hbody : ∀ events, (body (m.frames.size :: scope)).Ends (d (m.frames.size :: scope))
      { m with frames := m.frames.push [], events } post)
    (hevents : ∀ a m' events, post a m' → post a { m' with events }) :
    (Exec.inFrame setting scope body).Ends (Course.inFrame setting scope d) m post := by
  rw [Folds.inFrame_eq]
  refine note fun events => ?_
  have henter : Folds.enter.Lands { m with events } fun frame m' =>
      frame = m.frames.size ∧ m' = { m with frames := m.frames.push [], events } := ⟨rfl, rfl⟩
  refine after henter ?_
  rintro _ _ ⟨rfl, rfl⟩ a m'' hrun havoid
  unfold Folds.leaving at hrun
  cases hinner : body (m.frames.size :: scope) { m with frames := m.frames.push [], events } with
  | ok a' m' =>
    simp only [hinner] at hrun
    obtain ⟨_, m₁, htold, hrun⟩ := bind_eq_ok hrun
    obtain ⟨events', rfl⟩ := (Lands.note .pop).of_ok htold
    cases hrun
    exact hevents _ _ _ (hbody events a m' hinner havoid)
  | error e m' =>
    simp only [hinner] at hrun
    obtain ⟨_, m₁, _, hrun⟩ := bind_eq_ok hrun
    cases hrun

end Ends

end Exec

end Ember
