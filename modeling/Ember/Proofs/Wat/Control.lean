import Ember.Proofs.Wat.Operands

namespace Ember.Wat

/-- The instructions run through, or leave the function with a word. -/
def Does (calls : Calls) (rounds : Nat) (code : List Instr) (s : Store) :
    (left : Option Int64) → Store → Prop
  | none, s' => Takes calls rounds code [] s [] s'
  | some w, s' => ∀ stack, ∃ rest,
    Instr.runAll calls rounds code ⟨stack, s⟩ = .ok (.returned w, ⟨rest, s'⟩)

/-- The word that is left where a word is returned. -/
def Role.returned : Role → Int64 → Int64
  | .start, w => w
  | .function result, w => if result = .void then 0 else result.narrow w

section

variable {calls : Calls} {rounds : Nat} {code more test : List Instr} {s s' s'' : Store}
  {left : Option Int64} {w : Int64}

namespace Does

theorem after (h : Takes calls rounds code [] s [] s') (h' : Does calls rounds more s' left s'') :
    Does calls rounds (code ++ more) s left s'' := by
  cases left with
  | none => exact Takes.append h h'
  | some w =>
    intro stack
    obtain ⟨rest, hrun⟩ := h' stack
    exact ⟨rest, (runAll_append_of_next (h stack)).trans hrun⟩

theorem append_of_left (h : Does calls rounds code s (some w) s') (more : List Instr) :
    Does calls rounds (code ++ more) s (some w) s' := by
  intro stack
  obtain ⟨rest, hrun⟩ := h stack
  exact ⟨rest, runAll_append_of_ended nofun hrun⟩

theorem ret (h : Takes calls rounds code [] s [.i64 w] s') :
    Does calls rounds (code ++ [.ret]) s (some w) s' := by
  intro stack
  exact ⟨_, (runAll_append_of_next (h stack)).trans (runAll_singleton rfl)⟩

/-- A return leaves the word, wrapped to the type of the result. -/
theorem leaving (h : Takes calls rounds code [] s [.i64 w] s') (role : Role) :
    Does calls rounds (code ++ leaving role) s (some (role.returned w)) s' := by
  cases role with
  | start => exact ret h
  | function result =>
    simp only [Wat.leaving, Role.returned]
    rw [← List.append_assoc, ← List.append_assoc]
    split
    · rename_i hvoid
      subst hvoid
      have hzero : Takes calls rounds [.drop, .const 0] [.i64 w] s' [.i64 0] s' :=
        (Takes.drop _).append (Takes.const 0)
      exact ret ((h.append hzero).append (Takes.narrowing .void 0))
    · rw [List.append_nil]
      exact ret (h.append (Takes.narrowing result w))

/-- What one of the branches of a conditional does. -/
theorem of_branch {branch : List Instr} {i : Instr}
    (hrun : ∀ stack, i.run calls rounds ⟨.truth (w != 0) :: stack, s'⟩ =
      (do return afterCond stack (← Instr.runAll calls rounds branch ⟨[], s'⟩)))
    (htest : Takes calls rounds test [] s [.i64 w] s')
    (h : Does calls rounds branch s' left s'') :
    Does calls rounds (test ++ [.const 0, .num .ne, i]) s left s'' := by
  have hcompare : Takes calls rounds (test ++ [.const 0, .num .ne]) [] s [.truth (w != 0)] s' :=
    htest.append (((Takes.const 0).push _).append (Takes.combine rfl))
  have hcode : test ++ [.const 0, .num .ne, i] = test ++ [.const 0, .num .ne] ++ [i] := by simp
  rw [hcode]
  cases left with
  | none =>
    refine Takes.append hcompare (Takes.of_run fun stack => ?_)
    rw [List.cons_append, List.nil_append, hrun, Takes.run_eq h]
    rfl
  | some v =>
    intro stack
    obtain ⟨rest, hbranch⟩ := h []
    refine ⟨rest, (runAll_append_of_next (hcompare stack)).trans (runAll_singleton ?_)⟩
    rw [List.cons_append, List.nil_append, hrun, hbranch]
    rfl

theorem cond_then (other : Option (List Instr)) (htest : Takes calls rounds test [] s [.i64 w] s')
    (hw : w ≠ 0) (h : Does calls rounds code s' left s'') :
    Does calls rounds (test ++ [.const 0, .num .ne, .cond code other]) s left s'' := by
  refine of_branch (fun stack => ?_) htest h
  have htruth : Operand.truth (w != 0) = .i32 1 := by simp [Operand.truth, hw]
  cases other <;> rw [htruth] <;> rfl

theorem cond_else {other : List Instr} (htest : Takes calls rounds test [] s [.i64 0] s')
    (h : Does calls rounds other s' left s'') :
    Does calls rounds (test ++ [.const 0, .num .ne, .cond code (some other)]) s left s'' :=
  of_branch (fun _ => rfl) htest h

theorem cond_skip (htest : Takes calls rounds test [] s [.i64 0] s') :
    Does calls rounds (test ++ [.const 0, .num .ne, .cond code none]) s none s' :=
  of_branch (fun _ => rfl) htest Takes.nil

end Does

/-- A loop does, from its beginning on and in a number of rounds. -/
def LoopDoes (calls : Calls) (rounds n : Nat) (test code : List Instr) (count : Nat) (s : Store)
    (left : Option Int64) (s' : Store) : Prop :=
  ∀ stack around, ∃ rest,
    iterate (.cont n) (Instr.runAll calls rounds
        (test ++ [.num .eqz, .brIf (.brk n)] ++ code ++ [.br (.cont n)])) around count ⟨stack, s⟩ =
      .ok (left.elim (.branch (.brk n)) .returned, ⟨rest, s'⟩)

namespace LoopDoes

variable {n count : Nat}

theorem test_eq (htest : Takes calls rounds test [] s [.i64 w] s') :
    Instr.runAll calls rounds (test ++ [.num .eqz, .brIf (.brk n)]) ⟨[], s⟩ =
      .ok (if w = 0 then .branch (.brk n) else .next, ⟨[], s'⟩) := by
  have heqz : Takes calls rounds [.num .eqz] [.i64 w] s' [.truth (w == 0)] s' :=
    Takes.num fun _ => rfl
  have hcode : test ++ [.num .eqz, .brIf (.brk n)] = test ++ [.num .eqz] ++ [.brIf (.brk n)] := by
    simp
  rw [hcode, runAll_append_of_next (htest.append heqz).run_eq]
  refine runAll_singleton ?_
  by_cases hw : w = 0
  · subst hw
    rfl
  · have htruth : Operand.truth (w == 0) = .i32 0 := by simp [Operand.truth, hw]
    rw [htruth, if_neg hw]
    rfl

theorem exit (htest : Takes calls rounds test [] s [.i64 0] s') :
    LoopDoes calls rounds n test code (count + 1) s none s' := by
  intro stack around
  refine ⟨[], ?_⟩
  have hround : Instr.runAll calls rounds
      (test ++ [.num .eqz, .brIf (.brk n)] ++ code ++ [.br (.cont n)]) ⟨[], s⟩ =
        .ok (.branch (.brk n), ⟨[], s'⟩) := by
    rw [List.append_assoc _ code]
    exact runAll_append_of_ended nofun (test_eq htest)
  simp only [iterate, hround]
  rfl

theorem again (htest : Takes calls rounds test [] s [.i64 w] s') (hw : w ≠ 0) {s₂ s₃ : Store}
    (hbody : Does calls rounds code s' none s₂)
    (h : LoopDoes calls rounds n test code count s₂ left s₃) :
    LoopDoes calls rounds n test code (count + 1) s left s₃ := by
  intro stack around
  obtain ⟨rest, hrest⟩ := h [] around
  refine ⟨rest, ?_⟩
  have hbegin := test_eq (n := n) htest
  rw [if_neg hw] at hbegin
  have hround : Instr.runAll calls rounds
      (test ++ [.num .eqz, .brIf (.brk n)] ++ code ++ [.br (.cont n)]) ⟨[], s⟩ =
        .ok (.branch (.cont n), ⟨[], s₂⟩) := by
    rw [List.append_assoc _ code, runAll_append_of_next hbegin,
      runAll_append_of_next (Takes.run_eq hbody)]
    exact runAll_singleton rfl
  rw [← hrest]
  simp only [iterate, hround]
  exact if_pos rfl

theorem leave (htest : Takes calls rounds test [] s [.i64 w] s') (hw : w ≠ 0) {v : Int64}
    {s₂ : Store} (hbody : Does calls rounds code s' (some v) s₂) :
    LoopDoes calls rounds n test code (count + 1) s (some v) s₂ := by
  intro stack around
  obtain ⟨rest, hrest⟩ := hbody []
  refine ⟨rest, ?_⟩
  have hbegin := test_eq (n := n) htest
  rw [if_neg hw] at hbegin
  have hround : Instr.runAll calls rounds
      (test ++ [.num .eqz, .brIf (.brk n)] ++ code ++ [.br (.cont n)]) ⟨[], s⟩ =
        .ok (.returned v, ⟨rest, s₂⟩) := by
    rw [List.append_assoc _ code, runAll_append_of_next hbegin]
    exact runAll_append_of_ended nofun hrest
  simp only [iterate, hround]
  rfl

end LoopDoes

/-- What a loop does, branches out of it included. -/
theorem LoopDoes.does {n : Nat} (h : LoopDoes calls rounds n test code rounds s left s') :
    Does calls rounds [whileLoop n test code] s left s' := by
  have hblock : ∀ stack, ∃ rest, (whileLoop n test code).run calls rounds ⟨stack, s⟩ =
      .ok (afterBlock (.brk n) stack (left.elim (.branch (.brk n)) .returned, ⟨rest, s'⟩)) := by
    intro stack
    obtain ⟨rest, hrest⟩ := h [] []
    refine ⟨rest, ?_⟩
    have hloop : Instr.runAll calls rounds [.loop (.cont n)
        (test ++ [.num .eqz, .brIf (.brk n)] ++ code ++ [.br (.cont n)])] ⟨[], s⟩ =
          .ok (left.elim (.branch (.brk n)) .returned, ⟨rest, s'⟩) := by
      refine runAll_singleton ?_
      rw [Instr.run]
      exact hrest
    simp only [whileLoop, Instr.run, hloop]
    rfl
  cases left with
  | none =>
    refine Takes.of_run fun stack => ?_
    obtain ⟨rest, hrest⟩ := hblock stack
    rw [List.nil_append, hrest]
    exact congrArg Except.ok (if_pos rfl)
  | some w =>
    intro stack
    obtain ⟨rest, hrest⟩ := hblock stack
    exact ⟨rest, runAll_singleton hrest⟩

end

end Ember.Wat
