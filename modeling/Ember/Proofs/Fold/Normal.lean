import Ember.Proofs.Outline.Parts
import Ember.Proofs.Sound.Parser

namespace Ember

namespace Literal

variable {op : BinaryOp}

theorem signed?_eq_none (hknown : ∀ code, op ≠ .unknown code) {a b : Int64} :
    signed? op a b = none ↔ op.isDivision ∧ b = 0 := by
  unfold signed?
  by_cases hzero : op.isDivision ∧ b = 0
  · simp [hzero]
  · rw [if_neg hzero]
    cases op with
    | unknown code => exact absurd rfl (hknown code)
    | _ => simpa using hzero

theorem unsigned?_eq_none (hknown : ∀ code, op ≠ .unknown code) {a b : UInt64} :
    unsigned? op a b = none ↔ op.isDivision ∧ b = 0 := by
  unfold unsigned?
  by_cases hzero : op.isDivision ∧ b = 0
  · simp [hzero]
  · rw [if_neg hzero]
    cases op with
    | unknown code => exact absurd rfl (hknown code)
    | _ => simpa using hzero

/-- Only a division by zero has no result. -/
theorem combine?_eq_none (hknown : ∀ code, op ≠ .unknown code) {a b : Literal} :
    combine? op a b = none ↔ op.isDivision ∧ b.word = 0 := by
  unfold combine?
  split
  · rw [unsigned?_eq_none hknown]
    refine and_congr_right fun _ => ⟨fun hzero => ?_, fun hzero => by rw [hzero]; rfl⟩
    rw [← Int64.toInt64_toUInt64 b.word, hzero]
    rfl
  · exact signed?_eq_none hknown

end Literal

/-- The node is no operator that folding applies: no constant stands in parentheses or behind an
operator, and constants stand on both sides of an operator only if it divides by zero. -/
def Expr.Stuck : Expr → Prop
  | .group (.literal _ _) _ | .unary _ (.literal _ _) _ => False
  | .binary op (.literal _ _) (.literal b _) _ => op.isDivision ∧ b.word = 0
  | _ => True

section

variable {targets : Bool}

theorem Expr.stuck_foldedGroup {inner : Expr} (loc : Location)
    (h : ∀ x ∈ inner.parts targets, x.Stuck) :
    ∀ x ∈ (Expr.foldedGroup inner loc).parts targets, x.Stuck := by
  cases inner with
  | literal value _ => simp [foldedGroup, parts, Stuck]
  | _ => exact List.forall_mem_cons.2 ⟨trivial, h⟩

theorem Expr.stuck_foldedUnary (op : UnaryOp) {operand : Expr} (loc : Location)
    (h : ∀ x ∈ operand.parts targets, x.Stuck) :
    ∀ x ∈ (Expr.foldedUnary op operand loc).parts targets, x.Stuck := by
  cases operand with
  | literal value _ => simp [foldedUnary, parts, Stuck]
  | _ => exact List.forall_mem_cons.2 ⟨trivial, h⟩

theorem Expr.stuck_foldedBinary {op : BinaryOp} (hknown : ∀ code, op ≠ .unknown code)
    {left right : Expr} (loc : Location) (hleft : ∀ x ∈ left.parts targets, x.Stuck)
    (hright : ∀ x ∈ right.parts targets, x.Stuck) :
    ∀ x ∈ (Expr.foldedBinary op left right loc).parts targets, x.Stuck := by
  have hparts := List.forall_mem_append.2 ⟨hleft, hright⟩
  unfold foldedBinary
  split
  · split
    · simp [parts, Stuck]
    · rename_i hnone
      exact List.forall_mem_cons.2 ⟨(Literal.combine?_eq_none hknown).1 hnone, hparts⟩
  · rename_i hconstants
    refine List.forall_mem_cons.2 ⟨?_, hparts⟩
    cases left with
    | literal a _ =>
      cases right with
      | literal b _ => exact (hconstants _ _ _ _ rfl rfl).elim
      | _ => trivial
    | _ => trivial

end

/-- The node has no operator outside the language. -/
def Head.Known (h : Head) : Prop := ∀ code, h ≠ .binary (.unknown code)

mutual

/-- Outside the targets of assignments nothing is left to fold. -/
theorem Expr.stuck_fold : (e : Expr) → (e.outline.All fun h _ => h.Known) →
    ∀ x ∈ e.fold.parts false, x.Stuck
  | .literal _ _, _ | .var _ _, _ => by simp [fold, parts, Stuck]
  | .group inner loc, h => Expr.stuck_foldedGroup loc (Expr.stuck_fold inner h.2.1)
  | .assign _ value _, h => List.forall_mem_cons.2 ⟨trivial, Expr.stuck_fold value h.2.2.1⟩
  | .unary op operand loc, h => Expr.stuck_foldedUnary op loc (Expr.stuck_fold operand h.2.1)
  | .binary op left right loc, h =>
    Expr.stuck_foldedBinary (fun code hop => h.1 code (congrArg Head.binary hop)) loc
      (Expr.stuck_fold left h.2.1) (Expr.stuck_fold right h.2.2.1)
  | .call callee args _, h =>
    List.forall_mem_cons.2 ⟨trivial, List.forall_mem_append.2
      ⟨Expr.stuck_fold callee h.2.1, Expr.stuck_foldAll args h.2.2⟩⟩

theorem Expr.stuck_foldAll : (es : List Expr) →
    Outline.AllIn (fun h _ => h.Known) (Expr.outlines es) →
    ∀ x ∈ Expr.partsAll false (Expr.foldAll es), x.Stuck
  | [], _ => nofun
  | e :: rest, h =>
    List.forall_mem_append.2 ⟨Expr.stuck_fold e h.1, Expr.stuck_foldAll rest h.2⟩

end

theorem Expr.stuck_foldOption {e : Option Expr}
    (h : Outline.AllIn (fun h _ => h.Known) (e.map Expr.outline).toList) :
    ∀ x ∈ Expr.partsOption false (e.map Expr.fold), x.Stuck := by
  cases e with
  | none => exact nofun
  | some e => exact Expr.stuck_fold e h.1

mutual

theorem Stmt.stuck_fold : (s : Stmt) → (s.outline.All fun h _ => h.Known) →
    ∀ x ∈ s.fold.parts false, x.Stuck
  | .function _ _ _ body _ _, h => by
    obtain ⟨-, -, -, hbody⟩ := Stmt.all_function.1 h
    exact Stmt.stuck_foldAll body (Stmt.allIn_outlines.2 hbody)
  | .var _ _ _ _, h | .returning _ _, h => Expr.stuck_foldOption h.2
  | .block body _, h => Stmt.stuck_foldAll body h.2
  | .conditional cond body none _, h | .loop cond body _, h =>
    List.forall_mem_append.2 ⟨Expr.stuck_fold cond h.2.1, Stmt.stuck_fold body h.2.2.1⟩
  | .conditional cond body (some other) _, h =>
    List.forall_mem_append.2 ⟨Expr.stuck_fold cond h.2.1, List.forall_mem_append.2
      ⟨Stmt.stuck_fold body h.2.2.1, Stmt.stuck_fold other h.2.2.2.1⟩⟩
  | .expr e _, h => Expr.stuck_fold e h.2.1

theorem Stmt.stuck_foldAll : (ss : List Stmt) →
    Outline.AllIn (fun h _ => h.Known) (Stmt.outlines ss) →
    ∀ x ∈ Stmt.partsAll false (Stmt.foldAll ss), x.Stuck
  | [], _ => nofun
  | s :: rest, h =>
    List.forall_mem_append.2 ⟨Stmt.stuck_fold s h.1, Stmt.stuck_foldAll rest h.2⟩

end

theorem Expr.foldedGroup_eq_self {inner : Expr} {loc : Location}
    (h : (Expr.group inner loc).Stuck) : Expr.foldedGroup inner loc = .group inner loc := by
  cases inner with
  | literal value _ => exact h.elim
  | _ => rfl

theorem Expr.foldedUnary_eq_self {op : UnaryOp} {operand : Expr} {loc : Location}
    (h : (Expr.unary op operand loc).Stuck) :
    Expr.foldedUnary op operand loc = .unary op operand loc := by
  cases operand with
  | literal value _ => exact h.elim
  | _ => rfl

theorem Expr.foldedBinary_eq_self {op : BinaryOp} {left right : Expr} {loc : Location}
    (h : (Expr.binary op left right loc).Stuck) :
    Expr.foldedBinary op left right loc = .binary op left right loc := by
  unfold foldedBinary
  split
  · rename_i a _ b _
    have hknown : ∀ code, op ≠ .unknown code := by
      rintro code rfl
      exact absurd h.1 Bool.false_ne_true
    have hnone : Literal.combine? op a b = none := (Literal.combine?_eq_none hknown).2 h
    rw [hnone]
  · rfl

mutual

theorem Expr.fold_eq_self : (e : Expr) → (∀ x ∈ e.parts false, x.Stuck) → e.fold = e
  | .literal _ _, _ | .var _ _, _ => rfl
  | .group inner loc, h => by
    obtain ⟨hnode, hinner⟩ := List.forall_mem_cons.1 h
    rw [fold, Expr.fold_eq_self inner hinner, Expr.foldedGroup_eq_self hnode]
  | .assign target value loc, h => by
    obtain ⟨-, hvalue⟩ := List.forall_mem_cons.1 h
    rw [fold, Expr.fold_eq_self value hvalue]
  | .unary op operand loc, h => by
    obtain ⟨hnode, hoperand⟩ := List.forall_mem_cons.1 h
    rw [fold, Expr.fold_eq_self operand hoperand, Expr.foldedUnary_eq_self hnode]
  | .binary op left right loc, h => by
    obtain ⟨hnode, hsides⟩ := List.forall_mem_cons.1 h
    obtain ⟨hleft, hright⟩ := List.forall_mem_append.1 hsides
    rw [fold, Expr.fold_eq_self left hleft, Expr.fold_eq_self right hright,
      Expr.foldedBinary_eq_self hnode]
  | .call callee args loc, h => by
    obtain ⟨-, hparts⟩ := List.forall_mem_cons.1 h
    obtain ⟨hcallee, hargs⟩ := List.forall_mem_append.1 hparts
    rw [fold, Expr.fold_eq_self callee hcallee, Expr.foldAll_eq_self args hargs]

theorem Expr.foldAll_eq_self : (es : List Expr) →
    (∀ x ∈ Expr.partsAll false es, x.Stuck) → Expr.foldAll es = es
  | [], _ => rfl
  | e :: rest, h => by
    obtain ⟨he, hrest⟩ := List.forall_mem_append.1 h
    rw [Expr.foldAll, Expr.fold_eq_self e he, Expr.foldAll_eq_self rest hrest]

end

theorem Expr.foldOption_eq_self {e : Option Expr}
    (h : ∀ x ∈ Expr.partsOption false e, x.Stuck) : e.map Expr.fold = e := by
  cases e with
  | none => rfl
  | some e => exact congrArg some (Expr.fold_eq_self e h)

mutual

theorem Stmt.fold_eq_self : (s : Stmt) → (∀ x ∈ s.parts false, x.Stuck) → s.fold = s
  | .function _ _ _ body _ _, h => by rw [fold, Stmt.foldAll_eq_self body h]
  | .var _ _ _ _, h | .returning _ _, h => by rw [fold, Expr.foldOption_eq_self h]
  | .block body _, h => by rw [fold, Stmt.foldAll_eq_self body h]
  | .conditional cond body none _, h | .loop cond body _, h => by
    obtain ⟨hcond, hbody⟩ := List.forall_mem_append.1 h
    rw [fold, Expr.fold_eq_self cond hcond, Stmt.fold_eq_self body hbody]
  | .conditional cond body (some other) _, h => by
    obtain ⟨hcond, hbranches⟩ := List.forall_mem_append.1 h
    obtain ⟨hbody, hother⟩ := List.forall_mem_append.1 hbranches
    rw [fold, Expr.fold_eq_self cond hcond, Stmt.fold_eq_self body hbody,
      Stmt.fold_eq_self other hother]
  | .expr e _, h => by rw [fold, Expr.fold_eq_self e h]

theorem Stmt.foldAll_eq_self : (ss : List Stmt) →
    (∀ x ∈ Stmt.partsAll false ss, x.Stuck) → Stmt.foldAll ss = ss
  | [], _ => rfl
  | s :: rest, h => by
    obtain ⟨hs, hrest⟩ := List.forall_mem_append.1 h
    rw [Stmt.foldAll, Stmt.fold_eq_self s hs, Stmt.foldAll_eq_self rest hrest]

end

/-- Folding what a parse returns leaves nothing to fold outside the targets of assignments: a
constant stands neither in parentheses nor behind an operator, and constants stand on both sides of
an operator only if it divides by zero. Folding once more changes nothing. -/
theorem Program.fold_parse_normal (file : String) (source : Source) (table : SymbolTable) :
    (∀ x ∈ (Program.parse file source table).program.fold.parts false, x.Stuck) ∧
      (Program.parse file source table).program.fold.fold =
        (Program.parse file source table).program.fold := by
  have hknown : ∀ s ∈ (Program.parse file source table).program.body,
      s.outline.All fun h _ => h.Known :=
    fun s hs => Outline.All.mono (fun _ _ => Head.Sound.known) _
      ((Program.sound_parse file source table).2 s hs)
  have hstuck : ∀ x ∈ (Program.parse file source table).program.fold.parts false, x.Stuck :=
    Stmt.stuck_foldAll _ (Stmt.allIn_outlines.2 hknown)
  refine ⟨hstuck, ?_⟩
  rw [Program.fold, Stmt.foldAll_eq_self _ hstuck]

end Ember
