import Ember.Proofs.Parser.Acceptance.Expression
import Ember.Proofs.Parser.Repetition
import Ember.Proofs.Precedence.Operation

namespace Ember.Parser

variable {operand : Parser Expr} {min : Nat} {s s' : State}

/-- Operands joined by the operators that bind tighter than `min`. The right operand of an operator
takes in only those that bind tighter than that one. -/
def tighterThan (operand : Parser Expr) (min : Nat) : Parser Expr := do
  let first ← operand
  iterate (fun left => do
    let t ← current
    match binaryOp? t.lexeme with
    | some op =>
      if min < op.precedence then
        advance
        return some (.binary op left (← tighterThan operand op.precedence) t.loc)
      else return none
    | none => return none) first
termination_by 4 - min
decreasing_by
  have hle := op.precedence_le
  omega

/-- One more operand, if an operator that binds tighter than `min` joins it. -/
def tighterStep (operand : Parser Expr) (min : Nat) (left : Expr) : Parser (Option Expr) := do
  let t ← current
  match binaryOp? t.lexeme with
  | some op =>
    if min < op.precedence then
      advance
      return some (.binary op left (← tighterThan operand op.precedence) t.loc)
    else return none
  | none => return none

theorem tighterThan_eq (operand : Parser Expr) (min : Nat) :
    tighterThan operand min = operand >>= iterate (tighterStep operand min) := by
  rw [tighterThan]
  rfl

/-- The operator that stands next, if one does, binds no tighter than `p`. -/
def State.NoTighter (s : State) (p : Nat) : Prop :=
  ∀ op, binaryOp? s.current.lexeme = some op → op.precedence ≤ p

theorem tighterStep_of_le (left : Expr) (h : s.NoTighter min) :
    tighterStep operand min left s = .ok none s := by
  rw [tighterStep, current_bind]
  cases hop : binaryOp? s.current.lexeme with
  | none => rfl
  | some op =>
    dsimp only
    rw [if_neg (Nat.not_lt.2 (h op hop))]
    rfl

theorem tighterStep_of_lt {op : BinaryOp} (left : Expr) (hop : binaryOp? s.current.lexeme = some op)
    (hlt : min < op.precedence) :
    tighterStep operand min left s = (tighterThan operand op.precedence >>= fun right =>
      pure (some (.binary op left right s.current.loc))) s.advanced := by
  rw [tighterStep, current_bind, hop]
  dsimp only
  rw [if_pos hlt]
  rfl

theorem chainStep_of_ne {p : Nat} (left : Expr)
    (h : ∀ op, binaryOp? s.current.lexeme = some op → op.precedence ≠ p) :
    chainStep p operand left s = .ok none s := by
  rw [chainStep, current_bind]
  cases hop : binaryOp? s.current.lexeme with
  | none => rfl
  | some op =>
    dsimp only
    rw [if_neg (h op hop)]
    rfl

theorem chainStep_of_eq {op : BinaryOp} (left : Expr)
    (hop : binaryOp? s.current.lexeme = some op) :
    chainStep op.precedence operand left s = (operand >>= fun right =>
      pure (some (.binary op left right s.current.loc))) s.advanced := by
  rw [chainStep, current_bind, hop]
  dsimp only
  rw [if_pos rfl]
  rfl

theorem current_ne_of_binaryOp? {op : BinaryOp} (hop : binaryOp? s.current.lexeme = some op) :
    s.current.lexeme ≠ .endOfFile := by
  intro hend
  rw [hend] at hop
  cases hop

theorem State.noTighter_or (s : State) (p : Nat) :
    s.NoTighter p ∨ ∃ op, binaryOp? s.current.lexeme = some op ∧ p < op.precedence := by
  by_cases h : ∃ op, binaryOp? s.current.lexeme = some op ∧ p < op.precedence
  · exact .inr h
  · exact .inl fun op hop => Nat.le_of_not_lt fun hlt => h ⟨op, hop, hlt⟩

theorem Orderly.tighterThan (h : Orderly operand) (min : Nat) :
    Orderly (tighterThan operand min) := by
  rw [tighterThan_eq]
  refine h.bind fun first => .iterate (fun left => current.bind fun t => ?_) first
  split
  · rename_i op hop
    have hle := op.precedence_le
    by_cases hlt : min < op.precedence
    · rw [if_pos hlt]
      exact advance.bind fun _ => (Orderly.tighterThan h op.precedence).bind fun _ => pure _
    · rw [if_neg hlt]
      exact pure _
  · exact pure _
termination_by 4 - min

theorem productive_tighterStep (h : Orderly operand) (min : Nat) :
    Productive (tighterStep operand min) where
  atEnd left s hs := by
    refine tighterStep_of_le left fun op hop => ?_
    rw [State.current, hs] at hop
    cases hop
  takes left s b s' hs := by
    rcases s.noTighter_or min with hle | ⟨op, hop, hlt⟩
    · rw [tighterStep_of_le left hle] at hs
      cases hs
    · rw [tighterStep_of_lt left hop hlt] at hs
      have hle := ((h.tighterThan op.precedence).bind fun right =>
        .pure (some (Expr.binary op left right s.current.loc))).length_le s.advanced
      rw [hs] at hle
      exact Nat.lt_of_le_of_lt hle (length_advanced (current_ne_of_binaryOp? hop))

/-- The loop goes on as long as an operator binds tighter than its bound. -/
theorem noTighter_of_iterate (h : Orderly operand) {left e : Expr}
    (hrun : iterate (tighterStep operand min) left s = .ok e s') : s'.NoTighter min := by
  have hcourse := (productive_tighterStep h min).repeats left s
  rw [hrun] at hcourse
  obtain ⟨s₀, hend⟩ := hcourse.ends
  rcases s₀.noTighter_or min with hle | ⟨op, hop, hlt⟩
  · rw [tighterStep_of_le e hle] at hend
    cases hend
    exact hle
  · rw [tighterStep_of_lt e hop hlt] at hend
    cases hright : tighterThan operand op.precedence s₀.advanced with
    | ok right s₁ =>
      rw [bind_of_ok hright] at hend
      cases hend
    | error d s₁ =>
      rw [bind_of_error hright] at hend
      cases hend

theorem noTighter_of_tighterThan (h : Orderly operand) {e : Expr}
    (hrun : tighterThan operand min s = .ok e s') : s'.NoTighter min := by
  rw [tighterThan_eq] at hrun
  cases hfirst : operand s with
  | ok first s₁ =>
    rw [bind_of_ok hfirst] at hrun
    exact noTighter_of_iterate h hrun
  | error d s₁ =>
    rw [bind_of_error hfirst] at hrun
    cases hrun

theorem iterate_tighterStep_of_le (h : Orderly operand) (left : Expr) (hle : s.NoTighter min) :
    iterate (tighterStep operand min) left s = .ok left s := by
  rw [(productive_tighterStep h min).iterate_eq, bind_of_ok (tighterStep_of_le left hle)]
  rfl

theorem bind_of_run {α β : Type} {p q : Parser α} (f : α → Parser β) (h : p s = q s') :
    (p >>= f) s = (q >>= f) s' := by
  simp only [bind, EStateM.bind, h]

theorem iterate_tighterStep_of_lt (h : Orderly operand) {op : BinaryOp} (left : Expr)
    (hop : binaryOp? s.current.lexeme = some op) (hlt : min < op.precedence) :
    iterate (tighterStep operand min) left s = (tighterThan operand op.precedence >>= fun right =>
      iterate (tighterStep operand min) (.binary op left right s.current.loc)) s.advanced := by
  rw [(productive_tighterStep h min).iterate_eq, bind_of_run _ (tighterStep_of_lt left hop hlt),
    bind_assoc]
  rfl

theorem iterate_chainStep_of_eq (h : Orderly operand) {op : BinaryOp} (left : Expr)
    (hop : binaryOp? s.current.lexeme = some op) :
    iterate (chainStep op.precedence operand) left s = (operand >>= fun right =>
      iterate (chainStep op.precedence operand) (.binary op left right s.current.loc))
        s.advanced := by
  rw [(productive_chainStep op.precedence h).iterate_eq,
    bind_of_run _ (chainStep_of_eq left hop), bind_assoc]
  rfl

/-- What a loop leaves to the loop with the next lower bound is the operators of that bound. -/
theorem iterate_tighterStep_succ (h : Orderly operand) (min : Nat) (left : Expr) (s : State) :
    (iterate (tighterStep operand (min + 1)) left >>=
      iterate (chainStep (min + 1) (tighterThan operand (min + 1)))) s =
        iterate (tighterStep operand min) left s := by
  generalize hn : s.ahead.length = n
  induction n using Nat.strongRecOn generalizing left s with
  | ind n ih =>
    rcases s.noTighter_or min with hle | ⟨op, hop, hlt⟩
    · have hnext : s.NoTighter (min + 1) := fun op hop => Nat.le_succ_of_le (hle op hop)
      have hne : ∀ op, binaryOp? s.current.lexeme = some op → op.precedence ≠ min + 1 :=
        fun op hop => Nat.ne_of_lt (Nat.lt_succ_of_le (hle op hop))
      rw [bind_of_ok (iterate_tighterStep_of_le h left hnext), iterate_tighterStep_of_le h left hle,
        (productive_chainStep (min + 1) (h.tighterThan (min + 1))).iterate_eq,
        bind_of_ok (chainStep_of_ne left hne)]
      rfl
    · -- Behind the operator and its operand fewer tokens are left.
      have hshorter : ∀ {right s₁}, tighterThan operand op.precedence s.advanced = .ok right s₁ →
          s₁.ahead.length < n := by
        intro right s₁ hright
        have hrest := (h.tighterThan op.precedence).length_le s.advanced
        rw [hright] at hrest
        exact hn ▸ Nat.lt_of_le_of_lt hrest (length_advanced (current_ne_of_binaryOp? hop))
      rw [iterate_tighterStep_of_lt h left hop hlt]
      rcases Nat.lt_or_ge (min + 1) op.precedence with hgt | hge
      · -- The first loop takes the operator.
        rw [bind_of_run _ (iterate_tighterStep_of_lt h left hop hgt), bind_assoc]
        cases hright : tighterThan operand op.precedence s.advanced with
        | error d s₁ => rw [bind_of_error hright, bind_of_error hright]
        | ok right s₁ =>
          rw [bind_of_ok hright, bind_of_ok hright]
          exact ih _ (hshorter hright) _ s₁ rfl
      · -- The operator stops the first loop, and the second one takes it.
        have hp : op.precedence = min + 1 := Nat.le_antisymm hge hlt
        have hnext : s.NoTighter (min + 1) := by
          intro op' hop'
          cases hop.symm.trans hop'
          exact hge
        have hchain := iterate_chainStep_of_eq (h.tighterThan op.precedence) left hop
        rw [bind_of_ok (iterate_tighterStep_of_le h left hnext), ← hp, hchain]
        cases hright : tighterThan operand op.precedence s.advanced with
        | error d s₁ => rw [bind_of_error hright, bind_of_error hright]
        | ok right s₁ =>
          have hstop : s₁.NoTighter (min + 1) := hp ▸ noTighter_of_tighterThan h hright
          rw [bind_of_ok hright, bind_of_ok hright, ← ih _ (hshorter hright) _ s₁ rfl,
            bind_of_ok (iterate_tighterStep_of_le h _ hstop), hp]

/-- A layer of the parser over the operators that bind tighter takes in those of one more level. -/
theorem leftAssociative_tighterThan (h : Orderly operand) (min : Nat) :
    leftAssociative (min + 1) (tighterThan operand (min + 1)) = tighterThan operand min := by
  rw [leftAssociative_eq, tighterThan_eq, tighterThan_eq operand min, bind_assoc]
  congr 1
  funext left s
  rw [← iterate_tighterStep_succ h min left s, tighterThan_eq]

/-- No operator binds tighter than a product. -/
theorem tighterThan_four (h : Orderly operand) : tighterThan operand 4 = operand := by
  rw [tighterThan_eq]
  funext s
  cases hs : operand s with
  | error d s' => rw [bind_of_error hs]
  | ok e s' =>
    rw [bind_of_ok hs, iterate_tighterStep_of_le h e fun op _ => op.precedence_le]

/-- The layers of the parser come to one loop over all operators. -/
theorem binary_eq_tighterThan (h : Orderly operand) : binary operand = tighterThan operand 0 := by
  rw [binary, ← leftAssociative_tighterThan h 0, ← leftAssociative_tighterThan h 1,
    ← leftAssociative_tighterThan h 2, ← leftAssociative_tighterThan h 3, tighterThan_four h]

end Ember.Parser
