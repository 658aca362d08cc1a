import Ember.Proofs.Recovery.Shape
import Ember.Proofs.Wat.Declared

namespace Ember

theorem Program.Flat.fold {p : Program} (h : p.Flat) : p.fold.Flat := by
  intro s' hs'
  rw [Program.fold, Stmt.foldAll_eq_map] at hs'
  obtain ⟨s, hs, rfl⟩ := List.mem_map.1 hs'
  exact (h s hs).fold

namespace Wat

/-- What such a program uses that is not supported. -/
inductive Unsupported : String → Prop
  | target (kind : NodeKind) : Unsupported ("assignment to " ++ kind.name)
  | redefinition (name : String) : Unsupported ("redefinition of " ++ name)
  | value (name : String) : Unsupported ("function value " ++ name)
  | void : Unsupported "void value"

/-- None of these is a function inside of another, or a node that the lowering has no case for. -/
theorem Unsupported.ne {what : String} (h : Unsupported what) :
    (∀ name, what ≠ "nested function " ++ name) ∧ ∀ kind : NodeKind, what ≠ kind.name := by
  have hhead : what.toList.head? ∈ [some 'a', some 'r', some 'f', some 'v'] := by
    cases h <;> simp
  constructor
  · rintro name rfl
    simp at hhead
  · rintro kind rfl
    revert hhead
    cases kind <;> decide

/-- If something is not supported, it is told what. -/
def Telling (d : Diagnostic) : Prop :=
  d.code = .unsupportedConstruct → ∃ what, d.args = [("value", .text what)] ∧ Unsupported what

/-- The lowering fails, if it does, for a reason that is told. -/
def Explained {α : Type} (x : Except Failure α) : Prop := ∀ d, x = .error (.fault d) → Telling d

namespace Explained

variable {α β : Type}

theorem ok (a : α) : Explained (.ok a : Except Failure α) := fun _ h => nomatch h

theorem fault {code : Code} (hcode : code ≠ .unsupportedConstruct) (loc : Location)
    (args : List (String × Argument)) : Explained (View.fault code loc args : Except Failure α) := by
  rintro _ ⟨⟩ h
  exact absurd h hcode

theorem unsupported (loc : Location) {what : String} (h : Unsupported what) :
    Explained (View.unsupported loc what : Except Failure α) := by
  rintro _ ⟨⟩ -
  exact ⟨what, rfl, h⟩

theorem bind {x : Except Failure α} {f : α → Except Failure β} (hx : Explained x)
    (hf : ∀ a, x = .ok a → Explained (f a)) : Explained (x >>= f) := by
  cases x with
  | ok a => exact hf a rfl
  | error e =>
    rintro d ⟨⟩
    exact hx d rfl

theorem mapM {f : α → Except Failure β} {as : List α} (hf : ∀ a ∈ as, Explained (f a)) :
    Explained (as.mapM f) := by
  induction as with
  | nil => exact .ok []
  | cons a rest ih =>
    obtain ⟨ha, hrest⟩ := List.forall_mem_cons.1 hf
    rw [List.mapM_cons]
    exact ha.bind fun b _ => (ih hrest).bind fun bs _ => .ok (b :: bs)

theorem nameOf (declared : Declared) (id : Int) : Explained (View.nameOf declared id) := by
  unfold View.nameOf
  split
  · exact .ok _
  · exact fun _ h => nomatch h

end Explained

section

variable {v : View}

theorem explained_resolve (id : Int) (loc : Location) : Explained (v.resolve id loc) := by
  unfold View.resolve
  split
  · exact .ok _
  · refine (Explained.nameOf _ _).bind fun name _ => ?_
    split
    · exact .unsupported _ (.value name)
    · exact .fault (by decide) _ _

theorem explained_callee (callee : Expr) (actual : Nat) (loc : Location) :
    Explained (v.callee callee actual loc) := by
  unfold View.callee
  split
  · refine (Explained.nameOf _ _).bind fun name _ => ?_
    split
    · exact .fault (by decide) _ _
    · split
      · split
        · exact .ok _
        · exact .fault (by decide) _ _
      · split
        · exact .ok _
        · exact .fault (by decide) _ _
  · exact .fault (by decide) _ _

mutual

theorem explained_lowerExpr : (e : Expr) → Explained (lowerExpr v e)
  | .literal _ _ => by
    rw [lowerExpr]
    exact .ok _
  | .var id loc => by
    rw [lowerExpr]
    exact (explained_resolve id loc).bind fun _ _ => .ok _
  | .group inner _ => by
    rw [lowerExpr]
    exact explained_lowerExpr inner
  | .assign target value _ => by
    rw [lowerExpr]
    split
    · refine (explained_resolve _ _).bind fun slot _ => ?_
      exact (explained_lowerExpr value).bind fun _ _ => .ok _
    · exact .unsupported _ (.target target.kind)
  | .unary .neg operand _ => by
    rw [lowerExpr]
    exact (explained_lowerExpr operand).bind fun _ _ => .ok _
  | .unary .not operand _ => by
    rw [lowerExpr]
    exact (explained_lowerExpr operand).bind fun _ _ => .ok _
  | .binary op left right _ => by
    rw [lowerExpr]
    refine (explained_lowerExpr left).bind fun _ _ => ?_
    exact (explained_lowerExpr right).bind fun _ _ => .ok _
  | .call callee args loc => by
    rw [lowerExpr]
    refine (explained_callee callee args.length loc).bind fun c _ => ?_
    cases c with
    | function f => exact (explained_lowerArgs args).bind fun _ _ => .ok _
    | print => exact (explained_lowerPrinted args).bind fun _ _ => .ok _

theorem explained_lowerArgs : (es : List Expr) → Explained (lowerArgs v es)
  | [] => by
    rw [lowerArgs]
    exact .ok _
  | e :: rest => by
    rw [lowerArgs]
    refine (explained_lowerExpr e).bind fun _ _ => ?_
    exact (explained_lowerArgs rest).bind fun _ _ => .ok _

theorem explained_lowerPrinted : (es : List Expr) → Explained (lowerPrinted v es)
  | [] => by
    rw [lowerPrinted]
    exact .ok _
  | e :: rest => by
    rw [lowerPrinted]
    split
    · exact .unsupported _ .void
    · refine (explained_lowerExpr e).bind fun code _ => ?_
      dsimp only
      split
      · exact .ok _
      · exact (explained_lowerPrinted rest).bind fun _ _ => .ok _

end

end

/-- However far the lowering is, it fails for a reason that is told, or it leaves as many scopes as
it found. -/
def Lower.Explained {α : Type} (x : Lower α) : Prop :=
  ∀ p, Wat.Explained (x p) ∧ ∀ a p', x p = .ok (a, p') → p'.scopes.length = p.scopes.length

namespace Lower.Explained

variable {α β : Type} {declared : Declared} {role : Role}

theorem ok {x : Lower α}
    (h : ∀ p, ∃ a p', x p = .ok (a, p') ∧ p'.scopes.length = p.scopes.length) : x.Explained := by
  intro p
  obtain ⟨a, p', hrun, hscopes⟩ := h p
  rw [hrun]
  refine ⟨.ok _, ?_⟩
  rintro _ _ ⟨⟩
  exact hscopes

theorem pure (a : α) : Lower.Explained (Pure.pure a) := ok fun p => ⟨a, p, rfl, rfl⟩

theorem bind {x : Lower α} {f : α → Lower β} (hx : x.Explained) (hf : ∀ a, (f a).Explained) :
    Lower.Explained (x >>= f) := by
  intro p
  refine ⟨(hx p).1.bind fun r _ => (hf r.1 r.2).1, ?_⟩
  intro b p'' hrun
  obtain ⟨a, p', ha, hb⟩ := Lower.bind_eq_ok.1 hrun
  exact ((hf a p').2 b p'' hb).trans ((hx p).2 a p' ha)

theorem lift {x : Except Failure α} (h : Wat.Explained x) :
    Lower.Explained (fun p => x >>= fun a => .ok (a, p)) := by
  intro p
  refine ⟨h.bind fun _ _ => .ok _, ?_⟩
  rintro b p' hrun
  obtain ⟨a, -, hb⟩ := Except.bind_eq_ok.1 hrun
  cases hb
  rfl

/-- A scope that is entered is left. -/
theorem inScope {body : Lower α} (hbody : body.Explained) : (Lower.inScope body).Explained := by
  intro p
  refine ⟨(hbody { p with scopes := [] :: p.scopes }).1.bind fun _ _ => .ok _, ?_⟩
  intro a p'' hrun
  obtain ⟨_, _, ⟨⟩, hrun⟩ := Lower.bind_eq_ok.1 hrun
  obtain ⟨b, p', hb, hrun⟩ := Lower.bind_eq_ok.1 hrun
  have hscopes := (hbody _).2 b p' hb
  cases hrun
  simp only [List.length_cons] at hscopes
  simp only [List.length_tail]
  omega

theorem expr (e : Expr) : (Lower.expr declared role e).Explained :=
  fun p => lift (explained_lowerExpr (v := ⟨declared, role, p.scopes⟩) e) p

theorem exprOr (e : Option Expr) : (Lower.exprOr declared role e).Explained := by
  cases e with
  | none => exact pure _
  | some e => exact expr e

theorem isTopLevel : (Lower.isTopLevel role).Explained := ok fun p => ⟨_, p, rfl, rfl⟩

theorem newPlace (id : Int) : (Lower.newPlace role id).Explained := by
  refine isTopLevel.bind fun top => ?_
  split
  · exact pure _
  · exact ok fun p => ⟨_, _, rfl, rfl⟩

theorem bindSlot (id : Int) (slot : Slot) : (Lower.bind id slot).Explained := by
  refine ok fun p => ⟨(), _, rfl, ?_⟩
  obtain ⟨scopes, locals, loops⟩ := p
  cases scopes <;> rfl

theorem newLoop : Lower.newLoop.Explained := ok fun _ => ⟨_, _, rfl, rfl⟩

end Lower.Explained

open Lower.Explained in
mutual

theorem explained_lowerStmt {declared : Declared} {role : Role} :
    (s : Stmt) → s.Flat → (lowerStmt declared role s).Explained
  | .function _ _ _ _ _ _ => fun h => h.elim
  | .var id type init _ => fun _ => by
    rw [lowerStmt]
    refine (exprOr init).bind fun value => (newPlace id).bind fun place => ?_
    exact (bindSlot id _).bind fun _ => pure _
  | .block body _ => fun h => by
    rw [lowerStmt]
    exact inScope (explained_lowerStmts body h)
  | .conditional cond body none _ => fun h => by
    rw [lowerStmt]
    exact (expr cond).bind fun _ => (explained_lowerStmt body h).bind fun _ => pure _
  | .conditional cond body (some other) _ => fun h => by
    rw [lowerStmt]
    exact (expr cond).bind fun _ => (explained_lowerStmt body h.1).bind fun _ =>
      (explained_lowerStmt other h.2).bind fun _ => pure _
  | .loop cond body _ => fun h => by
    rw [lowerStmt]
    exact newLoop.bind fun _ => (expr cond).bind fun _ =>
      (explained_lowerStmt body h).bind fun _ => pure _
  | .returning value _ => fun _ => by
    rw [lowerStmt]
    exact (exprOr value).bind fun _ => pure _
  | .expr e _ => fun _ => by
    rw [lowerStmt]
    exact (expr e).bind fun _ => pure _

theorem explained_lowerStmts {declared : Declared} {role : Role} :
    (ss : List Stmt) → Stmt.FlatAll ss → (lowerStmts declared role ss).Explained
  | [] => fun _ => by
    rw [lowerStmts]
    exact pure _
  | s :: rest => fun h => by
    rw [lowerStmts]
    exact (explained_lowerStmt s h.1).bind fun _ =>
      (explained_lowerStmts rest h.2).bind fun _ => pure _

end

/-- Functions may be declared where there is one scope. -/
theorem explained_lowerTop {declared : Declared} {ss : List Stmt} (h : ∀ s ∈ ss, s.FlatInside)
    {p : Progress} (hp : p.scopes.length = 1) : Explained (lowerStmts declared .start ss p) := by
  induction ss generalizing p with
  | nil =>
    rw [lowerStmts]
    exact .ok _
  | cons s rest ih =>
    obtain ⟨hs, hrest⟩ := List.forall_mem_cons.1 h
    have hstep : Explained (lowerStmt declared .start s p) ∧
        ∀ a p', lowerStmt declared .start s p = .ok (a, p') → p'.scopes.length = 1 := by
      have hflat : s.Flat → Explained (lowerStmt declared .start s p) ∧
          ∀ a p', lowerStmt declared .start s p = .ok (a, p') → p'.scopes.length = 1 := fun hs =>
        ⟨(explained_lowerStmt s hs p).1, fun a p' hrun =>
          ((explained_lowerStmt s hs p).2 a p' hrun).trans hp⟩
      cases s with
      | function id params result body bodyLoc loc =>
        have htop : Lower.isTopLevel .start p = .ok (true, p) := by
          have hdecide : (decide (Role.start = .start) && decide (p.scopes.length = 1)) = true := by
            simp [hp]
          exact congrArg (fun top => Except.ok (top, p)) hdecide
        have hrun : lowerStmt declared .start (.function id params result body bodyLoc loc) p =
            .ok ([], p) := by
          rw [lowerStmt]
          exact Lower.bind_eq_ok.2 ⟨true, p, htop, rfl⟩
        rw [hrun]
        refine ⟨.ok _, ?_⟩
        rintro _ _ ⟨⟩
        exact hp
      | var | block | conditional | loop | returning | expr => exact hflat hs
    rw [lowerStmts]
    refine Explained.bind hstep.1 fun r hr => ?_
    exact (ih hrest (hstep.2 r.1 r.2 hr)).bind fun _ _ => .ok _

theorem explained_lowerFunction {declared : Declared} {f : FunctionDecl}
    (hbody : Stmt.FlatAll f.body) : Explained (lowerFunction declared f) :=
  ((Lower.Explained.inScope (explained_lowerStmts f.body hbody)) _).1.bind fun _ _ => .ok _

/-- The bodies of the functions that are collected declare no functions. -/
theorem explained_collectFunctions {table : SymbolTable} {found : List FunctionDecl}
    {ss : List Stmt} (hfound : ∀ f ∈ found, Stmt.FlatAll f.body) (hss : ∀ s ∈ ss, s.FlatInside) :
    Explained (collectFunctions table found ss) ∧
      ∀ functions, collectFunctions table found ss = .ok functions →
        ∀ f ∈ functions, Stmt.FlatAll f.body := by
  induction ss generalizing found with
  | nil =>
    refine ⟨.ok found, ?_⟩
    rintro _ ⟨⟩
    exact hfound
  | cons s rest ih =>
    obtain ⟨hs, hrest⟩ := List.forall_mem_cons.1 hss
    cases s with
    | function id params result body bodyLoc loc =>
      rw [collectFunctions]
      split
      · refine ⟨(Explained.nameOf _ _).bind fun name _ =>
          .unsupported _ (.redefinition name), ?_⟩
        intro functions hfunctions
        obtain ⟨_, -, hfunctions⟩ := Except.bind_eq_ok.1 hfunctions
        cases hfunctions
      · exact ih (List.forall_mem_append.2 ⟨hfound, List.forall_mem_singleton.2 hs⟩) hrest
    | var | block | conditional | loop | returning | expr => exact ih hfound hrest

theorem explained_lowerProgram {p : Program} (h : p.Flat) (table : SymbolTable) :
    Explained (lowerProgram table p) := by
  obtain ⟨hcollect, hbodies⟩ := @explained_collectFunctions table [] _ (List.forall_mem_nil _) h
  refine hcollect.bind fun functions hfunctions => ?_
  refine (Explained.mapM fun f hf => ?_).bind fun funcs _ => ?_
  · exact explained_lowerFunction (hbodies functions hfunctions f hf)
  · exact (explained_lowerTop h rfl).bind fun _ _ => .ok _

end Wat

theorem Program.Flat.explained_toWat {p : Program} (h : p.Flat) (table : SymbolTable) :
    Wat.Explained (p.toWat table) :=
  (Wat.explained_lowerProgram h.fold table).bind fun _ _ => .ok _

/-- What a program without a lowering is refused with. -/
def Program.refusal? (p : Program) (table : SymbolTable) : Option Diagnostic :=
  match p.toWat table with
  | .error (.fault d) => some d
  | _ => none

theorem Program.refusal?_eq_some {p : Program} {table : SymbolTable} {d : Diagnostic} :
    p.refusal? table = some d ↔ p.toWat table = .error (.fault d) := by
  unfold refusal?
  split
  · rename_i h
    simp [h]
  · rename_i h
    exact iff_of_false (by simp) (h d)

end Ember
