import Ember.Parser.Statement
import Ember.Proofs.Format.Shape
import Ember.Proofs.Outline.Address

namespace Ember

/-- Whether a node has its child `i` as the next link of a chain: an operation goes on in its left
operand, and a call in what is called. -/
def Head.continues : Head → (i : Nat) → (child : Head) → Bool
  | .binary _, 0, _ | .call, 0, _ => true
  | _, _, _ => false

/-- Whether the child `i` of a node is an assignment that is the value of another one. The value of
a compound assignment is the right operand of what the assignment stores. -/
def Head.reassigns : Head → (i : Nat) → (child : Head) → Bool
  | .assign, 1, .assign | .binary _, 1, .assign => true
  | _, _, _ => false

namespace Outline

def head : Outline → Head
  | .node head _ _ => head

/-- How many of the steps on the way to an address are of a kind. -/
def steps (kind : Head → Nat → Head → Bool) : List Nat → Outline → Nat
  | [], _ => 0
  | i :: address, .node head _ children =>
    match children[i]? with
    | none => 0
    | some child => (kind head i child.head).toNat + child.steps kind address

/-- The links of chains on the way to an address. -/
abbrev links (o : Outline) (address : List Nat) : Nat := o.steps Head.continues address

/-- The assignments on the way to an address that are values of others. -/
abbrev reassignments (o : Outline) (address : List Nat) : Nat := o.steps Head.reassigns address

/-- Besides the links above it, no node is more than `n` deep that is outside of all assignments
which are values of others. -/
def Within (n : Nat) (o : Outline) : Prop :=
  ∀ address, (o.part? address).isSome → o.reassignments address = 0 →
    address.length ≤ n + o.links address

namespace Within

variable {n m : Nat} {o : Outline} {head : Head} {loc : Location} {children : List Outline}

theorem mono (h : o.Within n) (hle : n ≤ m) : o.Within m :=
  fun address hpart hplain => (h address hpart hplain).trans (Nat.add_le_add_right hle _)

/-- A child may be as deep as its node where it is the next link of a chain, as deep as it likes
where it is an assignment and the value of another, and one less deep otherwise. -/
theorem node (h : ∀ i child, children[i]? = some child → head.reassigns i child.head = false →
    ∃ m, child.Within m ∧ m + 1 ≤ n + (head.continues i child.head).toNat) :
    (node head loc children).Within n := by
  intro address hpart hplain
  cases address with
  | nil => exact Nat.zero_le _
  | cons i address =>
    rw [part?, Option.isSome_bind] at hpart
    cases hchild : children[i]? with
    | none => simp [hchild] at hpart
    | some child =>
      rw [hchild] at hpart
      rw [reassignments, steps, hchild] at hplain
      obtain ⟨hstep, hplain⟩ := Nat.add_eq_zero_iff.1 hplain
      obtain ⟨m, hm, hle⟩ := h i child hchild (Bool.toNat_eq_zero.1 hstep)
      have hlength : address.length ≤ m + child.steps Head.continues address :=
        hm address hpart hplain
      rw [links, steps, hchild, List.length_cons]
      dsimp only
      omega

theorem leaf (n : Nat) (head : Head) (loc : Location) : (Outline.node head loc []).Within n :=
  node fun _ _ hchild _ => by simp at hchild

/-- A node is one deeper than its children. -/
theorem node_of_forall (h : ∀ child ∈ children, child.Within n) :
    (Outline.node head loc children).Within (n + 1) :=
  node fun _ child hchild _ => ⟨n, h child (List.mem_of_getElem? hchild), Nat.le_add_right ..⟩

end Within

end Outline

namespace Expr

variable {n m : Nat} {loc : Location} {op : BinaryOp} {left right target value callee inner : Expr}
  {args : List Expr}

theorem within_group (h : inner.outline.Within n) : (Expr.group inner loc).outline.Within (n + 1) :=
  .node_of_forall (List.forall_mem_singleton.2 h)

theorem within_unary {op : UnaryOp} (h : inner.outline.Within n) :
    (Expr.unary op inner loc).outline.Within (n + 1) :=
  .node_of_forall (List.forall_mem_singleton.2 h)

/-- A call is as deep as what is called. -/
theorem within_call (hcallee : callee.outline.Within (n + 1))
    (hargs : ∀ e ∈ args, e.outline.Within n) :
    (Expr.call callee args loc).outline.Within (n + 1) := by
  refine .node fun i child hchild _ => ?_
  cases i with
  | zero =>
    cases hchild
    exact ⟨n + 1, hcallee, Nat.le_refl _⟩
  | succ i =>
    have hmem : child ∈ Expr.outlines args := List.mem_of_getElem? hchild
    rw [outlines_eq_map] at hmem
    exact ⟨n, List.forall_mem_map.2 hargs child hmem, Nat.le_add_right ..⟩

/-- An operation is as deep as its left operand. -/
theorem within_binary (hleft : left.outline.Within (n + 1))
    (hright : right.isAssignment ∨ right.outline.Within n) :
    (Expr.binary op left right loc).outline.Within (n + 1) := by
  refine .node fun i child hchild hstep => ?_
  match i with
  | 0 =>
    cases hchild
    exact ⟨n + 1, hleft, Nat.le_refl _⟩
  | 1 =>
    cases hchild
    rcases hright with hassign | hshallow
    · cases right <;> cases hassign
      cases hstep
    · exact ⟨n, hshallow, Nat.le_add_right ..⟩

theorem within_assign (htarget : target.outline.Within n)
    (hvalue : value.isAssignment ∨ value.outline.Within n) :
    (Expr.assign target value loc).outline.Within (n + 1) := by
  refine .node fun i child hchild hstep => ?_
  match i with
  | 0 =>
    cases hchild
    exact ⟨n, htarget, Nat.le_add_right ..⟩
  | 1 =>
    cases hchild
    rcases hvalue with hassign | hshallow
    · cases value <;> cases hassign
      cases hstep
    · exact ⟨n, hshallow, Nat.le_add_right ..⟩

/-- What can be assigned: another assignment, or an operation. -/
structure Trails (n : Nat) (e : Expr) : Prop where
  within : e.outline.Within (n + 2)
  shallow : e.isAssignment ∨ e.outline.Within n

theorem trails_of_within {e : Expr} (h : e.outline.Within n) : Trails n e :=
  ⟨h.mono (Nat.le_add_right n 2), .inr h⟩

theorem trails_assign (op : AssignOp) (oploc : Location) (htarget : target.outline.Within n)
    (hvalue : Trails n value) :
    Trails n (.assign target (Parser.assigned op target value oploc) loc) := by
  refine ⟨?_, .inl rfl⟩
  cases op with
  | plain => exact (within_assign htarget hvalue.shallow).mono (Nat.le_succ _)
  | compound op =>
    have htarget' := htarget.mono (Nat.le_succ n)
    exact within_assign htarget' (.inr (within_binary htarget' hvalue.shallow))

end Expr

namespace Stmt

variable {n : Nat} {loc : Location} {cond e : Expr} {body other : Stmt} {ss : List Stmt}

theorem within_outlines (h : ∀ s ∈ ss, s.outline.Within n) :
    ∀ child ∈ Stmt.outlines ss, child.Within n := by
  rw [outlines_eq_map]
  exact List.forall_mem_map.2 h

theorem within_block (h : ∀ s ∈ ss, s.outline.Within n) :
    (Stmt.block ss loc).outline.Within (n + 1) :=
  .node_of_forall (within_outlines h)

theorem within_expr (h : e.outline.Within n) : (Stmt.expr e loc).outline.Within (n + 1) :=
  .node_of_forall (List.forall_mem_singleton.2 h)

theorem within_loop (hcond : cond.outline.Within n) (hbody : body.outline.Within n) :
    (Stmt.loop cond body loc).outline.Within (n + 1) :=
  .node_of_forall (List.forall_mem_cons.2 ⟨hcond, List.forall_mem_singleton.2 hbody⟩)

theorem within_conditional {other : Option Stmt} (hcond : cond.outline.Within n)
    (hbody : body.outline.Within n) (hother : ∀ s ∈ other, s.outline.Within n) :
    (Stmt.conditional cond body other loc).outline.Within (n + 1) := by
  cases other with
  | none =>
    exact .node_of_forall (List.forall_mem_cons.2 ⟨hcond, List.forall_mem_singleton.2 hbody⟩)
  | some other =>
    exact .node_of_forall (List.forall_mem_cons.2 ⟨hcond, List.forall_mem_cons.2
      ⟨hbody, List.forall_mem_singleton.2 (hother other rfl)⟩⟩)

theorem within_optional {e : Option Expr} (h : ∀ e' ∈ e, e'.outline.Within n) :
    ∀ child ∈ (e.map Expr.outline).toList, child.Within n := by
  cases e with
  | none => simp
  | some e => exact List.forall_mem_singleton.2 (h e rfl)

theorem within_var {id : Int} {type : Datatype} {init : Option Expr}
    (h : ∀ e ∈ init, e.outline.Within n) : (Stmt.var id type init loc).outline.Within (n + 1) :=
  .node_of_forall (within_optional h)

theorem within_returning {value : Option Expr} (h : ∀ e ∈ value, e.outline.Within n) :
    (Stmt.returning value loc).outline.Within (n + 1) :=
  .node_of_forall (within_optional h)

theorem within_function {id : Int} {params : List Param} {result : Datatype}
    {bodyLoc : Location} (h : ∀ s ∈ ss, s.outline.Within n) :
    (Stmt.function id params result ss bodyLoc loc).outline.Within (n + 2) := by
  refine .node_of_forall (List.forall_mem_append.2 ⟨?_, List.forall_mem_singleton.2 ?_⟩)
  · exact List.forall_mem_map.2 fun p _ => .leaf (n + 1) (.param p.type p.id) p.loc
  · exact .node_of_forall (within_outlines h)

/-- The step of a loop stands beside the body, in a block of the two. -/
theorem within_withStep {step : Option Stmt} (hbody : body.outline.Within n)
    (hstep : ∀ s ∈ step, s.outline.Within n) :
    (Parser.withStep body step).outline.Within (n + 1) := by
  cases step with
  | none => exact hbody.mono (Nat.le_succ n)
  | some step =>
    exact within_block (List.forall_mem_cons.2
      ⟨hbody, List.forall_mem_singleton.2 (hstep step rfl)⟩)

end Stmt

end Ember
