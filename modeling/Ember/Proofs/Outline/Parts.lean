import Ember.Tree

namespace Ember

mutual

/-- The expression and those inside it, the ones inside the target of an assignment only if
`targets` says so. -/
def Expr.parts (targets : Bool) : Expr → List Expr
  | .literal value loc => [.literal value loc]
  | .var id loc => [.var id loc]
  | .group inner loc => .group inner loc :: inner.parts targets
  | .assign target value loc =>
    .assign target value loc ::
      ((if targets then target.parts targets else []) ++ value.parts targets)
  | .call callee args loc =>
    .call callee args loc :: (callee.parts targets ++ Expr.partsAll targets args)
  | .unary op operand loc => .unary op operand loc :: operand.parts targets
  | .binary op left right loc =>
    .binary op left right loc :: (left.parts targets ++ right.parts targets)

def Expr.partsAll (targets : Bool) : List Expr → List Expr
  | [] => []
  | e :: rest => e.parts targets ++ Expr.partsAll targets rest

end

/-- The parts of an expression that may be absent. -/
def Expr.partsOption (targets : Bool) : Option Expr → List Expr
  | none => []
  | some e => e.parts targets

mutual

/-- The expressions of a statement, with those inside them. -/
def Stmt.parts (targets : Bool) : Stmt → List Expr
  | .function _ _ _ body _ _ => Stmt.partsAll targets body
  | .var _ _ init _ => Expr.partsOption targets init
  | .block body _ => Stmt.partsAll targets body
  | .conditional cond body none _ => cond.parts targets ++ body.parts targets
  | .conditional cond body (some other) _ =>
    cond.parts targets ++ (body.parts targets ++ other.parts targets)
  | .loop cond body _ => cond.parts targets ++ body.parts targets
  | .returning value _ => Expr.partsOption targets value
  | .expr e _ => e.parts targets

def Stmt.partsAll (targets : Bool) : List Stmt → List Expr
  | [] => []
  | s :: rest => s.parts targets ++ Stmt.partsAll targets rest

end

/-- The expressions of a program, with those inside them. -/
def Program.parts (targets : Bool) (p : Program) : List Expr := Stmt.partsAll targets p.body

/-- The expressions right inside an expression. -/
def Expr.operands : Expr → List Expr
  | .literal _ _ | .var _ _ => []
  | .group inner _ => [inner]
  | .assign target value _ => [target, value]
  | .call callee args _ => callee :: args
  | .unary _ operand _ => [operand]
  | .binary _ left right _ => [left, right]

namespace Stmt

/-- The expressions right inside a statement. -/
def operands : Stmt → List Expr
  | .function _ _ _ _ _ _ | .block _ _ => []
  | .var _ _ e _ | .returning e _ => e.toList
  | .conditional e _ _ _ | .loop e _ _ | .expr e _ => [e]

/-- The statements right inside a statement. -/
def children : Stmt → List Stmt
  | .function _ _ _ body _ _ | .block body _ => body
  | .conditional _ body other _ => body :: other.toList
  | .loop _ body _ => [body]
  | .var _ _ _ _ | .returning _ _ | .expr _ _ => []

end Stmt

/-- What holds of an expression also holds of those right inside it. -/
def Expr.Inherited (P : Expr → Prop) : Prop := ∀ e, P e → ∀ e' ∈ e.operands, P e'

/-- What holds of a statement passes to the expressions and the statements right inside it. -/
structure Stmt.Inherited (P : Expr → Prop) (Q : Stmt → Prop) : Prop where
  operands : ∀ s, Q s → ∀ e ∈ s.operands, P e
  children : ∀ s, Q s → ∀ s' ∈ s.children, Q s'

section

variable {P : Expr → Prop} {Q : Stmt → Prop}

mutual

/-- What is inherited reaches every part of an expression. -/
theorem Expr.Inherited.parts (hP : Expr.Inherited P) (targets : Bool) :
    (e : Expr) → P e → ∀ part ∈ e.parts targets, P part
  | .literal _ _, he | .var _ _, he => List.forall_mem_singleton.2 he
  | .group inner _, he => by
    have hinner : P inner := List.forall_mem_singleton.1 (hP _ he)
    exact List.forall_mem_cons.2 ⟨he, Expr.Inherited.parts hP targets inner hinner⟩
  | .assign target value _, he => by
    obtain ⟨htarget, hvalue⟩ := List.forall_mem_cons.1 (hP _ he)
    have hvalue := Expr.Inherited.parts hP targets value (List.forall_mem_singleton.1 hvalue)
    refine List.forall_mem_cons.2 ⟨he, List.forall_mem_append.2 ⟨?_, hvalue⟩⟩
    split
    · exact Expr.Inherited.parts hP targets target htarget
    · exact List.forall_mem_nil _
  | .call callee args _, he => by
    obtain ⟨hcallee, hargs⟩ := List.forall_mem_cons.1 (hP _ he)
    exact List.forall_mem_cons.2 ⟨he, List.forall_mem_append.2
      ⟨Expr.Inherited.parts hP targets callee hcallee,
        Expr.Inherited.partsAll hP targets args hargs⟩⟩
  | .unary _ operand _, he => by
    have hoperand : P operand := List.forall_mem_singleton.1 (hP _ he)
    exact List.forall_mem_cons.2 ⟨he, Expr.Inherited.parts hP targets operand hoperand⟩
  | .binary _ left right _, he => by
    obtain ⟨hleft, hright⟩ := List.forall_mem_cons.1 (hP _ he)
    have hright := Expr.Inherited.parts hP targets right (List.forall_mem_singleton.1 hright)
    exact List.forall_mem_cons.2 ⟨he, List.forall_mem_append.2
      ⟨Expr.Inherited.parts hP targets left hleft, hright⟩⟩

theorem Expr.Inherited.partsAll (hP : Expr.Inherited P) (targets : Bool) :
    (es : List Expr) → (∀ e ∈ es, P e) → ∀ part ∈ Expr.partsAll targets es, P part
  | [], _ => List.forall_mem_nil _
  | e :: rest, h => by
    obtain ⟨he, hrest⟩ := List.forall_mem_cons.1 h
    exact List.forall_mem_append.2 ⟨Expr.Inherited.parts hP targets e he,
      Expr.Inherited.partsAll hP targets rest hrest⟩

end

theorem Expr.Inherited.partsOption (hP : Expr.Inherited P) (targets : Bool) {e : Option Expr}
    (h : ∀ e' ∈ e.toList, P e') : ∀ part ∈ Expr.partsOption targets e, P part := by
  cases e with
  | none => exact List.forall_mem_nil _
  | some e => exact hP.parts targets e (List.forall_mem_singleton.1 h)

mutual

/-- What is inherited reaches every expression of a statement. -/
theorem Stmt.Inherited.parts (hP : Expr.Inherited P) (hQ : Stmt.Inherited P Q) (targets : Bool) :
    (s : Stmt) → Q s → ∀ part ∈ s.parts targets, P part
  | .function _ _ _ body _ _, hs =>
    Stmt.Inherited.partsAll hP hQ targets body (hQ.children _ hs)
  | .var _ _ _ _, hs => hP.partsOption targets (hQ.operands _ hs)
  | .block body _, hs => Stmt.Inherited.partsAll hP hQ targets body (hQ.children _ hs)
  | .conditional cond body none _, hs => by
    have hcond : P cond := List.forall_mem_singleton.1 (hQ.operands _ hs)
    have hbody : Q body := List.forall_mem_singleton.1 (hQ.children _ hs)
    exact List.forall_mem_append.2 ⟨hP.parts targets cond hcond,
      Stmt.Inherited.parts hP hQ targets body hbody⟩
  | .conditional cond body (some other) _, hs => by
    have hcond : P cond := List.forall_mem_singleton.1 (hQ.operands _ hs)
    obtain ⟨hbody, hother⟩ := List.forall_mem_cons.1 (hQ.children _ hs)
    exact List.forall_mem_append.2 ⟨hP.parts targets cond hcond, List.forall_mem_append.2
      ⟨Stmt.Inherited.parts hP hQ targets body hbody,
        Stmt.Inherited.parts hP hQ targets other (List.forall_mem_singleton.1 hother)⟩⟩
  | .loop cond body _, hs => by
    have hcond : P cond := List.forall_mem_singleton.1 (hQ.operands _ hs)
    have hbody : Q body := List.forall_mem_singleton.1 (hQ.children _ hs)
    exact List.forall_mem_append.2 ⟨hP.parts targets cond hcond,
      Stmt.Inherited.parts hP hQ targets body hbody⟩
  | .returning _ _, hs => hP.partsOption targets (hQ.operands _ hs)
  | .expr e _, hs => hP.parts targets e (List.forall_mem_singleton.1 (hQ.operands _ hs))

theorem Stmt.Inherited.partsAll (hP : Expr.Inherited P) (hQ : Stmt.Inherited P Q)
    (targets : Bool) :
    (ss : List Stmt) → (∀ s ∈ ss, Q s) → ∀ part ∈ Stmt.partsAll targets ss, P part
  | [], _ => List.forall_mem_nil _
  | s :: rest, h => by
    obtain ⟨hs, hrest⟩ := List.forall_mem_cons.1 h
    exact List.forall_mem_append.2 ⟨Stmt.Inherited.parts hP hQ targets s hs,
      Stmt.Inherited.partsAll hP hQ targets rest hrest⟩

end

end

end Ember
