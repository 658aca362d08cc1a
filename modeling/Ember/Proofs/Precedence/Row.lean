import Ember.Proofs.Precedence.Climbing

namespace Ember

theorem BinaryOp.precedence_pos (op : BinaryOp) : 0 < op.precedence := by
  cases op <;> simp [BinaryOp.precedence]

namespace Parser

variable {operand : Parser Expr} {min : Nat} {s s' : State}

/-- From `s` to `s'` stand operators, and behind each of them what the parser reads as an operand:
the tokens of this stretch, and the row that it continues. -/
inductive Links (operand : Parser Expr) : State → List Token → List Item → State → Prop where
  | nil (s : State) : Links operand s [] [] s
  | cons {s s₁ s' : State} {op : BinaryOp} {e : Expr} {u tokens : List Token} {items : List Item}
      (operator : binaryOp? s.current.lexeme = some op) (reads : operand s.advanced = .ok e s₁)
      (taken : s.advanced.ahead = u ++ s₁.ahead) (links : Links operand s₁ tokens items s') :
      Links operand s (s.current :: u ++ tokens)
        (.operator op s.current.loc :: .operand e :: items) s'

/-- The tokens of the stretch are taken, and no others. -/
theorem Links.ahead {tokens : List Token} {items : List Item}
    (h : Links operand s tokens items s') : s.ahead = tokens ++ s'.ahead := by
  induction h with
  | nil s => rfl
  | @cons s s₁ s' op e u tokens items operator reads taken links ih =>
    have hcurrent : s.ahead = s.current :: s.advanced.ahead := by
      have hreal := current_ne_of_binaryOp? operator
      unfold State.current at hreal ⊢
      unfold State.advanced
      cases hs : s.ahead with
      | nil => simp [hs] at hreal
      | cons t rest => rfl
    rw [hcurrent, taken, ih]
    simp

/-- The run has read an ordered operation from the front of the row. All its operators bind tighter
than `min`, and the operator that the rest of the row starts with does not. -/
inductive Climbed (operand : Parser Expr) (min : Nat) (row : List Item) (s' : State)
    (r : EStateM.Result Diagnostic State Expr) : Prop where
  | intro (t : Operation) (s₁ : State) (tokens : List Token) (items : List Item)
      (run : r = .ok t.expr s₁) (ordered : t.Ordered)
      (tight : ∀ o ∈ t.top?, min < o.precedence) (reading : t.reading ++ items = row)
      (rest : Links operand s₁ tokens items s') (loose : s₁.NoTighter min)

/-- An operator whose operand is read is joined to what stands on its left, and the loop goes on. -/
theorem climbed_iterate (h : Orderly operand) (hstop : binaryOp? s'.current.lexeme = none)
    (left : Operation) {tokens : List Token} {items : List Item}
    (hlinks : Links operand s tokens items s') (hleft : left.Ordered)
    (htop : ∀ o ∈ left.top?, min < o.precedence ∧ s.NoTighter o.precedence) :
    Climbed operand min (left.reading ++ items) s'
      (iterate (tighterStep operand min) left.expr s) := by
  generalize hn : items.length = n
  induction n using Nat.strongRecOn generalizing min left s tokens items with
  | ind n ih =>
    rcases s.noTighter_or min with hle | ⟨op, hop, hlt⟩
    · exact .intro left s tokens items (iterate_tighterStep_of_le h left.expr hle) hleft
        (fun o ho => (htop o ho).1) rfl hlinks hle
    · cases hlinks with
      | nil => rw [hop] at hstop; cases hstop
      | @cons _ s₁ _ op' e u tokens items operator reads taken links =>
        cases hop.symm.trans operator
        simp only [List.length_cons] at hn
        have hoperand : Climbed operand op.precedence (.operand e :: items) s'
            (tighterThan operand op.precedence s.advanced) := by
          rw [tighterThan_eq, bind_of_ok reads]
          exact ih items.length (by omega) (.operand e) links trivial
            (by simp [Operation.top?]) rfl
        obtain ⟨right, s₂, tokens₂, items₂, hrun, hright, htight, hreading, hrest, hloose⟩ :=
          hoperand
        rw [iterate_tighterStep_of_lt h left.expr hop hlt, bind_of_ok hrun]
        have hlength := congrArg List.length hreading
        have hpos := List.length_pos_iff.2 right.reading_ne_nil
        simp only [List.length_append, List.length_cons] at hlength
        have hjoin : (Operation.join op s.current.loc left right).Ordered :=
          ⟨hleft, hright, fun o ho => (htop o ho).2 op hop, htight⟩
        have hnext := ih items₂.length (by omega) (.join op s.current.loc left right) hrest
          hjoin (by rintro o ⟨⟩; exact ⟨hlt, hloose⟩) rfl
        rw [Operation.reading, List.append_assoc, List.cons_append, hreading] at hnext
        exact hnext

theorem climbed_tighterThan (h : Orderly operand) (min : Nat)
    (hstop : binaryOp? s'.current.lexeme = none)
    {s₁ : State} {e : Expr} {tokens : List Token} {items : List Item}
    (hfirst : operand s = .ok e s₁) (hlinks : Links operand s₁ tokens items s') :
    Climbed operand min (.operand e :: items) s' (tighterThan operand min s) := by
  rw [tighterThan_eq, bind_of_ok hfirst]
  exact climbed_iterate h hstop (.operand e) hlinks trivial (by simp [Operation.top?])

/-- Where a row of operands with operators between them stands before the parser, each operand read
within the depth limit and no operator behind the last one, the row is read whole, as the one
operation over it that is ordered: on the left of an operator nothing binds looser, on the right
everything binds tighter. -/
theorem binary_reads_row {room : Nat} {s₁ : State} {e : Expr} {u tokens : List Token}
    {items : List Item} (hfirst : unary room s = .ok e s₁) (htaken : s.ahead = u ++ s₁.ahead)
    (hlinks : Links (unary room) s₁ tokens items s')
    (hstop : binaryOp? s'.current.lexeme = none) :
    s.ahead = (u ++ tokens) ++ s'.ahead ∧
      ∃ t : Operation, binary (unary room) s = .ok t.expr s' ∧
        t.reading = .operand e :: items ∧ t.Ordered ∧
        ∀ t' : Operation, t'.reading = .operand e :: items → t'.Ordered → t' = t := by
  refine ⟨by rw [htaken, hlinks.ahead, List.append_assoc], ?_⟩
  have horderly : Orderly (unary room) := .unary room
  obtain ⟨t, s₂, tokens₂, items₂, hrun, hordered, -, hreading, hrest, hloose⟩ :=
    climbed_tighterThan horderly 0 hstop hfirst hlinks
  rw [← binary_eq_tighterThan horderly] at hrun
  cases hrest with
  | nil =>
    rw [List.append_nil] at hreading
    refine ⟨t, hrun, hreading, hordered, fun t' hreading' hordered' => ?_⟩
    exact hordered'.eq_of_reading hordered (hreading'.trans hreading.symm)
  | cons operator =>
    -- A rest of the row would start with an operator that binds as loose as nothing does.
    exact absurd (hloose _ operator) (Nat.not_le.2 (BinaryOp.precedence_pos _))

/-- The product is read first, then the difference, and the comparison last. -/
theorem binary_reads_row_mixed :
    let s : State := ⟨[⟨.integer "1", ⟨"m", 1, 1, 0⟩⟩, ⟨.mark .minus, ⟨"m", 1, 2, 1⟩⟩,
      ⟨.integer "2", ⟨"m", 1, 3, 2⟩⟩, ⟨.mark .star, ⟨"m", 1, 4, 3⟩⟩,
      ⟨.integer "3", ⟨"m", 1, 5, 4⟩⟩, ⟨.mark .equal, ⟨"m", 1, 6, 5⟩⟩,
      ⟨.integer "4", ⟨"m", 1, 8, 7⟩⟩, ⟨.mark .semicolon, ⟨"m", 1, 9, 8⟩⟩],
      ⟨"m", 1, 10, 9⟩, none, .empty, []⟩
    let items : List Item := [.operand (.literal (.int 1) ⟨"m", 1, 1, 0⟩),
      .operator .sub ⟨"m", 1, 2, 1⟩, .operand (.literal (.int 2) ⟨"m", 1, 3, 2⟩),
      .operator .mul ⟨"m", 1, 4, 3⟩, .operand (.literal (.int 3) ⟨"m", 1, 5, 4⟩),
      .operator .eq ⟨"m", 1, 6, 5⟩, .operand (.literal (.int 4) ⟨"m", 1, 8, 7⟩)]
    ∃ s' : State, ∃ t : Operation, binary (unary 1) s = .ok t.expr s' ∧ t.reading = items ∧
      t.Ordered ∧ ∀ t' : Operation, t'.reading = items → t'.Ordered → t' = t := by
  intro s items
  have hfirst : unary 1 s = .ok (.literal (.int 1) ⟨"m", 1, 1, 0⟩) s.advanced := rfl
  have hsub : unary 1 s.advanced.advanced =
      .ok (.literal (.int 2) ⟨"m", 1, 3, 2⟩) s.advanced.advanced.advanced := rfl
  let s₁ := s.advanced.advanced.advanced
  have hmul : unary 1 s₁.advanced =
      .ok (.literal (.int 3) ⟨"m", 1, 5, 4⟩) s₁.advanced.advanced := rfl
  let s₂ := s₁.advanced.advanced
  have heq : unary 1 s₂.advanced =
      .ok (.literal (.int 4) ⟨"m", 1, 8, 7⟩) s₂.advanced.advanced := rfl
  have hlinks : Links (unary 1) s.advanced _ (items.drop 1) s₂.advanced.advanced :=
    .cons rfl hsub (List.singleton_append ..).symm (.cons rfl hmul (List.singleton_append ..).symm
      (.cons rfl heq (List.singleton_append ..).symm (.nil _)))
  exact ⟨_, (binary_reads_row hfirst (List.singleton_append ..).symm hlinks rfl).2⟩

end Parser

end Ember
