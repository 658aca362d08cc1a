import Ember.Proofs.Wat.Operands

namespace Ember.Wat

/-- The store with more text before all that was written. -/
def Store.behind (text : String) (s : Store) : Store := { s with output := text ++ s.output }

def State.behind (text : String) (st : State) : State := { st with store := st.store.behind text }

def endedBehind (text : String) : Ending × State → Ending × State
  | (ending, st) => (ending, st.behind text)

/-- What is called does the same whatever was written before. -/
def Calls.Blind (calls : Calls) : Prop :=
  ∀ f st text, calls f (st.behind text) = (calls f st).map (State.behind text)

/-- What is executed does the same whatever was written before. -/
def Step.Blind (step : Step) : Prop :=
  ∀ st text, step (st.behind text) = (step st).map (endedBehind text)

section

variable {calls : Calls} {rounds : Nat}

theorem iterate_blind (l : Label) {body : Step} (hbody : body.Blind) (around : List Operand)
    (count : Nat) : Step.Blind (iterate l body around count) := by
  induction count with
  | zero => exact fun _ _ => rfl
  | succ count ih =>
    intro st text
    have hround := hbody { st with stack := [] } text
    change (body (State.behind text { st with stack := [] }) >>= _) = _
    rw [hround, iterate]
    cases body { st with stack := [] } with
    | error e => rfl
    | ok ended =>
      obtain ⟨ending, st'⟩ := ended
      cases ending with
      | next | returned => rfl
      | branch l' =>
        change (if l' = l then iterate l body around count (st'.behind text) else _) =
          Except.map _ (if l' = l then iterate l body around count st' else _)
        rw [apply_ite (Except.map _), ih st' text]
        rfl

theorem behind_afterBlock (l : Label) (around : List Operand) (text : String)
    (ended : Ending × State) :
    afterBlock l around (endedBehind text ended) =
      endedBehind text (afterBlock l around ended) := by
  obtain ⟨ending, st⟩ := ended
  cases ending with
  | next | returned => rfl
  | branch l' =>
    simp only [endedBehind, afterBlock]
    split <;> rfl

theorem behind_afterCond (around : List Operand) (text : String) (ended : Ending × State) :
    afterCond around (endedBehind text ended) =
      endedBehind text (afterCond around ended) := by
  obtain ⟨ending, st⟩ := ended
  cases ending <;> rfl

/-- What runs inside of an instruction, on a stack of its own. -/
theorem Step.Blind.inside {step : Step} (hstep : step.Blind)
    {after : Ending × State → Ending × State}
    {text : String} (hafter : ∀ ended, after (endedBehind text ended) =
      endedBehind text (after ended)) (st : State) :
    (do return after (← step { st.behind text with stack := [] })) =
      Except.map (endedBehind text)
        (do return after (← step { st with stack := [] })) := by
  have hrun := hstep { st with stack := [] } text
  change (step (State.behind text { st with stack := [] }) >>= _) = _
  rw [hrun]
  cases step { st with stack := [] } with
  | error e => rfl
  | ok ended => exact congrArg Except.ok (hafter ended)

mutual

theorem Instr.blind_run (hcalls : calls.Blind) (rounds : Nat) :
    (i : Instr) → Step.Blind (i.run calls rounds)
  | .const _, _, _ | .br _, _, _ => rfl
  | .localGet x, st, _ => by
    simp only [run, State.behind, Store.behind]
    cases st.store.locals x <;> rfl
  | .globalGet id, st, _ => by
    simp only [run, State.behind, Store.behind]
    cases st.store.globals id <;> rfl
  | .localSet x, ⟨stack, store⟩, _ | .localTee x, ⟨stack, store⟩, _ => by
    rcases stack with _ | ⟨_ | w, rest⟩
    · rfl
    · rfl
    · simp only [run, State.behind, Store.behind]
      cases store.locals x <;> rfl
  | .globalSet id, ⟨stack, store⟩, _ => by
    rcases stack with _ | ⟨_ | w, rest⟩
    · rfl
    · rfl
    · simp only [run, State.behind, Store.behind]
      cases store.globals id <;> rfl
  | .call f, st, text => by
    simp only [run, hcalls f st text]
    cases calls f st <;> rfl
  | .num op, st, _ => by
    simp only [run, State.behind, Store.behind]
    cases op.run st.stack <;> rfl
  | .drop, ⟨stack, _⟩, _ => by cases stack <;> rfl
  | .ret, ⟨stack, _⟩, _ => by
    rcases stack with _ | ⟨_ | _, _⟩ <;> rfl
  | .brIf l, ⟨stack, _⟩, _ => by
    rcases stack with _ | ⟨v | _, _⟩ <;> rfl
  | .block l body, st, text => by
    simp only [run]
    exact (Instr.blind_runAll hcalls rounds body).inside (behind_afterBlock l st.stack text) st
  | .loop l body, st, text => by
    simp only [run]
    exact iterate_blind l (Instr.blind_runAll hcalls rounds body) st.stack rounds st text
  | .cond body none, ⟨stack, store⟩, text => by
    rcases stack with _ | ⟨v | _, rest⟩
    · rfl
    · simp only [run, State.behind, Store.behind]
      split
      · rfl
      · exact (Instr.blind_runAll hcalls rounds body).inside (behind_afterCond rest text)
          ⟨rest, store⟩
    · rfl
  | .cond body (some other), ⟨stack, store⟩, text => by
    rcases stack with _ | ⟨v | _, rest⟩
    · rfl
    · simp only [run, State.behind, Store.behind]
      split
      · exact (Instr.blind_runAll hcalls rounds other).inside (behind_afterCond rest text)
          ⟨rest, store⟩
      · exact (Instr.blind_runAll hcalls rounds body).inside (behind_afterCond rest text)
          ⟨rest, store⟩
    · rfl

theorem Instr.blind_runAll (hcalls : calls.Blind) (rounds : Nat) :
    (code : List Instr) → Step.Blind (runAll calls rounds code)
  | [], _, _ => rfl
  | i :: rest, st, text => by
    simp only [runAll, Instr.blind_run hcalls rounds i st text]
    cases i.run calls rounds st with
    | error e => rfl
    | ok ended =>
      obtain ⟨ending, st'⟩ := ended
      cases ending with
      | next => exact Instr.blind_runAll hcalls rounds rest st' text
      | branch | returned => rfl

end

end

theorem hostCall_behind (f : FuncRef) (st : State) (text : String) :
    hostCall f (st.behind text) = (hostCall f st).map (State.behind text) := by
  obtain ⟨stack, store⟩ := st
  have hwrite : ∀ (call : HostCall) (rest : List Operand),
      (⟨rest, { store.behind text with output := (store.behind text).output ++ call.render }⟩ :
          State) =
        State.behind text ⟨rest, { store with output := store.output ++ call.render }⟩ := by
    intro call rest
    simp only [State.behind, Store.behind, String.append_assoc]
  cases f with
  | user id => rfl
  | printSpace | printNewline => exact congrArg Except.ok (hwrite _ _)
  | printI64 | printU64 | printBool =>
    rcases stack with _ | ⟨_ | v, rest⟩
    · rfl
    · rfl
    · exact congrArg Except.ok (hwrite _ _)

theorem resultOf_behind (text : String) (ended : Ending × State) :
    resultOf (endedBehind text ended) =
      (resultOf ended).map (Prod.map id (Store.behind text)) := by
  obtain ⟨ending, stack, store⟩ := ended
  cases ending with
  | next => rcases stack with _ | ⟨_ | v, _ | ⟨_, _⟩⟩ <;> rfl
  | branch | returned => rfl

/-- A function has an output before it that it does not read. -/
theorem Func.call_behind {calls : Calls} (hcalls : calls.Blind) (rounds : Nat) (f : Func)
    (st : State) (text : String) :
    f.call calls rounds (st.behind text) = (f.call calls rounds st).map (State.behind text) := by
  simp only [Func.call, State.behind]
  cases popWords f.params st.stack with
  | none => rfl
  | some popped =>
    obtain ⟨args, rest⟩ := popped
    have hbody := Instr.blind_runAll hcalls rounds f.body
      ⟨[], { st.store with locals := entryLocals args f.locals }⟩ text
    simp only [runBody]
    change ((Instr.runAll calls rounds f.body (State.behind text
      ⟨[], { st.store with locals := entryLocals args f.locals }⟩) >>= resultOf) >>= _) = _
    rw [hbody]
    cases Instr.runAll calls rounds f.body
        ⟨[], { st.store with locals := entryLocals args f.locals }⟩ with
    | error e => rfl
    | ok ended =>
      change (resultOf (endedBehind text ended) >>= _) = Except.map _ (resultOf ended >>= _)
      rw [resultOf_behind]
      cases resultOf ended <;> rfl

theorem Module.blind_callWithin (m : Module) (rounds depth : Nat) :
    (m.callWithin rounds depth).Blind := by
  induction depth with
  | zero =>
    intro f st text
    cases f with
    | user id => rfl
    | printI64 | printU64 | printBool | printSpace | printNewline => exact hostCall_behind _ st text
  | succ depth ih =>
    intro f st text
    cases f with
    | user id =>
      simp only [Module.callWithin]
      cases m.funcs.find? (·.id == id) with
      | none => rfl
      | some f => exact Func.call_behind ih rounds f st text
    | printI64 | printU64 | printBool | printSpace | printNewline => exact hostCall_behind _ st text

/-- What is taken and left does not depend on what was written before, and neither does what is
written. -/
theorem Takes.elsewhere {calls : Calls} (hcalls : calls.Blind) {rounds : Nat} {code : List Instr}
    {ins outs : List Operand} {s s' : Store} (h : Takes calls rounds code ins s outs s')
    (before : String) : ∃ written, s'.output = s.output ++ written ∧
      Takes calls rounds code ins { s with output := before } outs
        { s' with output := before ++ written } := by
  have hblind := Instr.blind_runAll hcalls rounds code
  have hempty : ∀ stack, ∃ s₀, s₀.behind s.output = s' ∧
      Instr.runAll calls rounds code ⟨ins ++ stack, { s with output := "" }⟩ =
        .ok (.next, ⟨outs ++ stack, s₀⟩) := by
    intro stack
    have hstore : Store.behind s.output { s with output := "" } = s := by
      simp only [Store.behind, String.append_empty]
    have hrun := hblind ⟨ins ++ stack, { s with output := "" }⟩ s.output
    rw [State.behind, hstore, h stack] at hrun
    cases hfirst : Instr.runAll calls rounds code ⟨ins ++ stack, { s with output := "" }⟩ with
    | error e =>
      rw [hfirst] at hrun
      cases hrun
    | ok ended =>
      obtain ⟨ending, stack', s₀⟩ := ended
      rw [hfirst] at hrun
      obtain ⟨hending, hstate⟩ := Prod.mk.inj (Except.ok.inj hrun)
      obtain ⟨hstack, hs'⟩ := State.mk.inj hstate
      cases hending
      cases hstack
      exact ⟨s₀, hs'.symm, rfl⟩
  obtain ⟨s₀, hs₀, _⟩ := hempty []
  refine ⟨s₀.output, congrArg Store.output hs₀.symm, fun stack => ?_⟩
  obtain ⟨s₁, hs₁, hrun⟩ := hempty stack
  have hsame : s₁.output = s₀.output :=
    (String.append_right_inj _).1 (congrArg Store.output (hs₁.trans hs₀.symm))
  have hbefore := hblind ⟨ins ++ stack, { s with output := "" }⟩ before
  rw [hrun] at hbefore
  simp only [State.behind, Store.behind, String.append_empty] at hbefore
  rw [hbefore, ← hsame, ← hs₁]
  rfl

end Ember.Wat
