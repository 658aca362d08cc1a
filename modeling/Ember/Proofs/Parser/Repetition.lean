import Ember.Proofs.Parser.Progress

namespace Ember.Parser

variable {α : Type} {step : α → Parser (Option α)} {a b : α} {s s' : State}

/-- What the steps come to one after the other, until one adds nothing or fails. -/
inductive Repeats (step : α → Parser (Option α)) :
    α → State → EStateM.Result Diagnostic State α → Prop where
  | stop {a : α} {s s' : State} (run : step a s = .ok none s') : Repeats step a s (.ok a s')
  | fail {a : α} {s s' : State} {d : Diagnostic} (run : step a s = .error d s') :
      Repeats step a s (.error d s')
  | again {a b : α} {s s' : State} {r : EStateM.Result Diagnostic State α}
      (run : step a s = .ok (some b) s') (rest : Repeats step b s' r) : Repeats step a s r

namespace Repeats

/-- A repetition that succeeds has ended with a step that adds nothing. -/
theorem ends (h : Repeats step a s (.ok b s')) : ∃ s₀, step b s₀ = .ok none s' := by
  generalize hr : EStateM.Result.ok b s' = r at h
  induction h with
  | stop run =>
    cases hr
    exact ⟨_, run⟩
  | fail run => cases hr
  | again run rest ih => exact ih hr

end Repeats

/-- The bound of a repetition does not show: there is a token for each step that adds something. -/
theorem Productive.repeats (h : Productive step) (a : α) (s : State) :
    Repeats step a s (iterate step a s) := by
  generalize hn : s.ahead.length = n
  induction n using Nat.strongRecOn generalizing a s with
  | ind n ih =>
    rw [h.iterate_eq]
    cases hs : step a s with
    | error d s' =>
      rw [bind_of_error hs]
      exact .fail hs
    | ok b s' =>
      rw [bind_of_ok hs]
      cases b with
      | none => exact .stop hs
      | some b =>
        have hlt := h.takes a s b s' hs
        exact .again hs (ih _ (hn ▸ hlt) b s' rfl)

end Ember.Parser
