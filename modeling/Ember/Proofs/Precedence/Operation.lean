import Ember.Tree

namespace Ember

/-- A member of a row of operands with operators between them. -/
inductive Item where
  | operand (e : Expr)
  | operator (op : BinaryOp) (loc : Location)

/-- Operands joined by operators. What is inside an operand is no part of the operation. -/
inductive Operation where
  | operand (e : Expr)
  | join (op : BinaryOp) (loc : Location) (left right : Operation)

namespace Operation

variable {op : BinaryOp} {loc : Location} {t t' left right left' right' : Operation} {p : Nat}

/-- The tree of the language that the operation is. -/
def expr : Operation → Expr
  | operand e => e
  | join op loc left right => .binary op left.expr right.expr loc

/-- The row that the operation is, read from left to right. -/
def reading : Operation → List Item
  | operand e => [.operand e]
  | join op loc left right => left.reading ++ .operator op loc :: right.reading

/-- The operator that binds last. An operand has none. -/
def top? : Operation → Option BinaryOp
  | operand _ => none
  | join op _ _ _ => some op

/-- Directly on the left of an operator stands an operand, or an operation that binds at least as
tight; directly on its right an operand, or an operation that binds tighter. -/
def Ordered : Operation → Prop
  | operand _ => True
  | join op _ left right =>
    left.Ordered ∧ right.Ordered ∧ (∀ o ∈ left.top?, op.precedence ≤ o.precedence) ∧
      ∀ o ∈ right.top?, op.precedence < o.precedence

theorem reading_ne_nil : ∀ t : Operation, t.reading ≠ []
  | operand _ => List.cons_ne_nil _ _
  | join _ _ _ _ => List.append_ne_nil_of_right_ne_nil _ (List.cons_ne_nil _ _)

/-- No operator of an ordered operation binds looser than the one that binds last. -/
theorem Ordered.precedence_le (h : t.Ordered) (htop : ∀ o ∈ t.top?, p ≤ o.precedence)
    (hmem : .operator op loc ∈ t.reading) : p ≤ op.precedence := by
  induction t with
  | operand e => simp [reading] at hmem
  | join op' loc' left right ihLeft ihRight =>
    obtain ⟨hleft, hright, hleftTop, hrightTop⟩ := h
    have hp : p ≤ op'.precedence := htop op' rfl
    rcases List.mem_append.1 hmem with hmem | hmem
    · exact ihLeft hleft (fun o ho => Nat.le_trans hp (hleftTop o ho)) hmem
    · rcases List.mem_cons.1 hmem with heq | hmem
      · cases heq
        exact hp
      · exact ihRight hright (fun o ho => Nat.le_trans hp (Nat.le_of_lt (hrightTop o ho))) hmem

/-- On the left of the operator that binds last, none binds looser. -/
theorem Ordered.le_left (h : (join op loc left right).Ordered) {op' : BinaryOp} {loc' : Location}
    (hmem : .operator op' loc' ∈ left.reading) : op.precedence ≤ op'.precedence :=
  h.1.precedence_le h.2.2.1 hmem

/-- On the right of the operator that binds last, all bind tighter. -/
theorem Ordered.lt_right (h : (join op loc left right).Ordered) {op' : BinaryOp} {loc' : Location}
    (hmem : .operator op' loc' ∈ right.reading) : op.precedence < op'.precedence :=
  h.2.1.precedence_le h.2.2.2 hmem

/-- Two ordered operations with one reading have the operator that binds last at the same place: of
two such places the left one would bind at least as tight as the right one, and looser. -/
theorem Ordered.split_eq {op' : BinaryOp} {loc' : Location}
    (h : (join op loc left right).Ordered) (h' : (join op' loc' left' right').Ordered)
    (heq : (join op loc left right).reading = (join op' loc' left' right').reading) :
    left.reading = left'.reading ∧ op = op' ∧ loc = loc' ∧ right.reading = right'.reading := by
  have hcross : ∀ {o o' : BinaryOp} {l l' : Location} {a a' b b' : Operation},
      (join o l a b).Ordered → (join o' l' a' b').Ordered → ∀ between : List Item,
      a'.reading = a.reading ++ .operator o l :: between →
      b.reading = between ++ .operator o' l' :: b'.reading → False := by
    intro o o' l l' a a' b b' ho ho' between hleft hright
    have hmem : .operator o l ∈ a'.reading := by simp [hleft]
    have hmem' : .operator o' l' ∈ b.reading := by simp [hright]
    have hle : o'.precedence ≤ o.precedence := ho'.le_left hmem
    have hlt : o.precedence < o'.precedence := ho.lt_right hmem'
    omega
  rcases List.append_eq_append_iff.1 heq with ⟨between, hleft, hright⟩ | ⟨between, hleft, hright⟩
  · cases between with
    | nil =>
      obtain ⟨hop, hrest⟩ := List.cons.inj hright
      cases hop
      exact ⟨by simpa using hleft.symm, rfl, rfl, hrest⟩
    | cons item between =>
      obtain ⟨rfl, hrest⟩ := List.cons.inj hright
      exact (hcross h h' between hleft hrest).elim
  · cases between with
    | nil =>
      obtain ⟨hop, hrest⟩ := List.cons.inj hright
      cases hop
      exact ⟨by simpa using hleft, rfl, rfl, hrest.symm⟩
    | cons item between =>
      obtain ⟨rfl, hrest⟩ := List.cons.inj hright
      exact (hcross h' h between hleft hrest).elim

theorem reading_operand_ne (e : Expr) (op : BinaryOp) (loc : Location) (left right : Operation) :
    (operand e).reading ≠ (join op loc left right).reading := by
  intro heq
  have hlength := congrArg List.length heq
  have hleft := List.length_pos_iff.2 left.reading_ne_nil
  simp only [reading, List.length_append, List.length_cons, List.length_nil] at hlength
  omega

/-- A row has one ordered operation at most. -/
theorem Ordered.eq_of_reading (h : t.Ordered) (h' : t'.Ordered) (heq : t.reading = t'.reading) :
    t = t' := by
  induction t generalizing t' with
  | operand e =>
    cases t' with
    | operand e' =>
      cases heq
      rfl
    | join op' loc' left' right' => exact absurd heq (reading_operand_ne _ _ _ _ _)
  | join op loc left right ihLeft ihRight =>
    cases t' with
    | operand e' => exact absurd heq.symm (reading_operand_ne _ _ _ _ _)
    | join op' loc' left' right' =>
      obtain ⟨hleft, rfl, rfl, hright⟩ := h.split_eq h' heq
      rw [ihLeft h.1 h'.1 hleft, ihRight h.2.1 h'.2.1 hright]

end Operation

end Ember
