import Ember.Proofs.Format.Brackets
import Ember.Proofs.Outline.Rows

namespace Ember

namespace Outline

variable {r : Int → Int → Prop} {o o' : Outline}

/-- The kind of the root. -/
def kind : Outline → NodeKind
  | .node head _ _ => head.kind

theorem Alike.kind_eq (h : o.Alike r o') : o.kind = o'.kind := by
  obtain ⟨hhead, -⟩ := h
  cases hhead <;> rfl

end Outline

/-- The kind of the node that the statement is. -/
def Stmt.kind : Stmt → NodeKind
  | .function _ _ _ _ _ _ => .function
  | .var _ _ _ _ => .varDecl
  | .block _ _ => .block
  | .conditional _ _ _ _ => .conditional
  | .loop _ _ _ => .loop
  | .returning _ _ => .returning
  | .expr _ _ => .exprStmt

theorem Expr.kind_outline (e : Expr) : e.outline.kind = e.kind := by cases e <;> rfl

theorem Stmt.kind_outline : (s : Stmt) → s.outline.kind = s.kind
  | .conditional _ _ none _ | .conditional _ _ (some _) _ => rfl
  | .function _ _ _ _ _ _ | .var _ _ _ _ | .block _ _ | .loop _ _ _ | .returning _ _ | .expr _ _ =>
    rfl

section

variable {r : Int → Int → Prop}

theorem Expr.kind_eq_of_alike {e e' : Expr} (h : e.outline.Alike r e'.outline) :
    e.kind = e'.kind := by
  rw [← e.kind_outline, ← e'.kind_outline, h.kind_eq]

theorem Stmt.kind_eq_of_alike {s s' : Stmt} (h : s.outline.Alike r s'.outline) :
    s.kind = s'.kind := by
  rw [← s.kind_outline, ← s'.kind_outline, h.kind_eq]

mutual

theorem Expr.alike_of_outline : (e e' : Expr) → e.outline.Alike r e'.outline →
    e.Alike r Anywhere e'
  | .assign target value _, e', h => by
    cases e' with
    | assign target' value' =>
      match h with
      | .node _ (.cons htarget (.cons hvalue .nil)) =>
        exact .assign (Expr.alike_of_outline target target' htarget)
          (Expr.alike_of_outline value value' hvalue) trivial
    | _ => cases Expr.kind_eq_of_alike h
  | .binary _ left right _, e', h => by
    cases e' with
    | binary op' left' right' =>
      match h with
      | .node (.plain _) (.cons hleft (.cons hright .nil)) =>
        exact .binary (Expr.alike_of_outline left left' hleft)
          (Expr.alike_of_outline right right' hright) trivial
    | _ => cases Expr.kind_eq_of_alike h
  | .unary _ operand _, e', h => by
    cases e' with
    | unary op' operand' =>
      match h with
      | .node (.plain _) (.cons hoperand .nil) =>
        exact .unary (Expr.alike_of_outline operand operand' hoperand) trivial
    | _ => cases Expr.kind_eq_of_alike h
  | .call callee args _, e', h => by
    cases e' with
    | call callee' args' =>
      match h with
      | .node _ (.cons hcallee hargs) =>
        exact .call (Expr.alike_of_outline callee callee' hcallee)
          (Expr.alikeAll_of_outlines args args' hargs) trivial
    | _ => cases Expr.kind_eq_of_alike h
  | .group inner _, e', h => by
    cases e' with
    | group inner' =>
      match h with
      | .node _ (.cons hinner .nil) =>
        exact .group (Expr.alike_of_outline inner inner' hinner) trivial
    | _ => cases Expr.kind_eq_of_alike h
  | .var _ _, e', h => by
    cases e' with
    | var =>
      match h with
      | .node (.var hid) _ => exact .var hid trivial
    | _ => cases Expr.kind_eq_of_alike h
  | .literal _ _, e', h => by
    cases e' with
    | literal =>
      match h with
      | .node (.plain _) _ => exact .literal trivial
    | _ => cases Expr.kind_eq_of_alike h

theorem Expr.alikeAll_of_outlines : (es es' : List Expr) →
    Outline.AlikeAll r (Expr.outlines es) (Expr.outlines es') → Expr.AlikeAll r Anywhere es es'
  | [], [], _ => .nil
  | [], _ :: _, h | _ :: _, [], h => nomatch h
  | e :: rest, e' :: rest', .cons he hrest =>
    .cons (Expr.alike_of_outline e e' he) (Expr.alikeAll_of_outlines rest rest' hrest)

end

/-- A part that may be absent is there exactly if it has a node. -/
theorem Expr.rel_of_outlines : (e e' : Option Expr) →
    Outline.AlikeAll r (e.map Expr.outline).toList (e'.map Expr.outline).toList →
    Option.Rel (Expr.Alike r Anywhere) e e'
  | none, none, _ => .none
  | none, some _, h | some _, none, h => nomatch h
  | some e, some e', .cons he .nil => .some (Expr.alike_of_outline e e' he)

theorem Param.alike_of_outline (p p' : Param) (h : p.outline.Alike r p'.outline) :
    p.Alike r Anywhere p' := by
  obtain ⟨id, type, loc⟩ := p
  obtain ⟨id', type', loc'⟩ := p'
  obtain ⟨hhead, -⟩ := h
  cases hhead with
  | plain hid => cases hid
  | param hid => exact ⟨hid, rfl, trivial⟩

/-- The body of a function comes after its parameters, so there are as many of these as it has
children but one. -/
theorem Param.alike_of_outlines {body body' : Outline} : (ps ps' : List Param) →
    Outline.AlikeAll r (ps.map Param.outline ++ [body]) (ps'.map Param.outline ++ [body']) →
    List.Forall₂ (Param.Alike r Anywhere) ps ps' ∧ body.Alike r body'
  | [], [], .cons hbody .nil => ⟨.nil, hbody⟩
  | [], [_], h | [_], [], h => nomatch h
  | [], _ :: _ :: _, h | _ :: _ :: _, [], h => nomatch h
  | p :: rest, p' :: rest', .cons hp hrest => by
    obtain ⟨hparams, hbody⟩ := Param.alike_of_outlines rest rest' hrest
    exact ⟨.cons (Param.alike_of_outline p p' hp) hparams, hbody⟩

mutual

theorem Stmt.alike_of_outline : (s s' : Stmt) → s.outline.Alike r s'.outline →
    s.Alike r Anywhere s'
  | .function _ params _ body _ _, s', h => by
    cases s' with
    | function id' params' result' body' bodyLoc' loc' =>
      match h with
      | .node (.function hid) hchildren =>
        obtain ⟨hparams, hblock⟩ := Param.alike_of_outlines params params' hchildren
        obtain ⟨-, hbody⟩ := hblock
        exact .function hid hparams (Stmt.alikeAll_of_outlines body body' hbody) trivial trivial
    | _ => cases Stmt.kind_eq_of_alike h
  | .var _ _ init _, s', h => by
    cases s' with
    | var id' type' init' loc' =>
      match h with
      | .node (.varDecl hid) hinit => exact .var hid (Expr.rel_of_outlines init init' hinit) trivial
    | _ => cases Stmt.kind_eq_of_alike h
  | .block body _, s', h => by
    cases s' with
    | block body' loc' =>
      match h with
      | .node _ hbody => exact .block (Stmt.alikeAll_of_outlines body body' hbody) trivial
    | _ => cases Stmt.kind_eq_of_alike h
  | .conditional cond body none _, s', h => by
    cases s' with
    | conditional cond' body' other' loc' =>
      cases other' with
      | none =>
        match h with
        | .node _ (.cons hcond (.cons hbody .nil)) =>
          exact .ifThen (Expr.alike_of_outline cond cond' hcond)
            (Stmt.alike_of_outline body body' hbody) trivial
      | some => nomatch h
    | _ => cases Stmt.kind_eq_of_alike h
  | .conditional cond body (some other) _, s', h => by
    cases s' with
    | conditional cond' body' other' loc' =>
      cases other' with
      | none => nomatch h
      | some other' =>
        match h with
        | .node _ (.cons hcond (.cons hbody (.cons hother .nil))) =>
          exact .ifElse (Expr.alike_of_outline cond cond' hcond)
            (Stmt.alike_of_outline body body' hbody) (Stmt.alike_of_outline other other' hother)
            trivial
    | _ => cases Stmt.kind_eq_of_alike h
  | .loop cond body _, s', h => by
    cases s' with
    | loop cond' body' loc' =>
      match h with
      | .node _ (.cons hcond (.cons hbody .nil)) =>
        exact .loop (Expr.alike_of_outline cond cond' hcond)
          (Stmt.alike_of_outline body body' hbody) trivial
    | _ => cases Stmt.kind_eq_of_alike h
  | .returning value _, s', h => by
    cases s' with
    | returning value' loc' =>
      match h with
      | .node _ hvalue => exact .returning (Expr.rel_of_outlines value value' hvalue) trivial
    | _ => cases Stmt.kind_eq_of_alike h
  | .expr e _, s', h => by
    cases s' with
    | expr e' loc' =>
      match h with
      | .node _ (.cons he .nil) => exact .expr (Expr.alike_of_outline e e' he) trivial
    | _ => cases Stmt.kind_eq_of_alike h

theorem Stmt.alikeAll_of_outlines : (ss ss' : List Stmt) →
    Outline.AlikeAll r (Stmt.outlines ss) (Stmt.outlines ss') → Stmt.AlikeAll r Anywhere ss ss'
  | [], [], _ => .nil
  | [], _ :: _, h | _ :: _, [], h => nomatch h
  | s :: rest, s' :: rest', .cons hs hrest =>
    .cons (Stmt.alike_of_outline s s' hs) (Stmt.alikeAll_of_outlines rest rest' hrest)

end

end

end Ember
