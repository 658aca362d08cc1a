import Ember.Proofs.Sound.Tree
import Ember.Wat.Lower

namespace Ember.Wat

/-- The lowering has not met a tree that no source text gives. -/
def Intact {α : Type} (x : Except Failure α) : Prop := ∀ message, x ≠ .error (.breach message)

namespace Intact

variable {α β : Type}

theorem ok (a : α) : Intact (.ok a : Except Failure α) := nofun

theorem fault (code : Code) (loc : Location) (args : List (String × Argument)) :
    Intact (View.fault code loc args : Except Failure α) := nofun

theorem unsupported (loc : Location) (what : String) :
    Intact (View.unsupported loc what : Except Failure α) := nofun

theorem bind {x : Except Failure α} {f : α → Except Failure β} (hx : Intact x)
    (hf : ∀ a, x = .ok a → Intact (f a)) : Intact (x >>= f) := by
  cases x with
  | ok a => exact hf a rfl
  | error e =>
    rintro message ⟨⟩
    exact hx message rfl

theorem mapM {f : α → Except Failure β} {as : List α} (hf : ∀ a ∈ as, Intact (f a)) :
    Intact (as.mapM f) := by
  induction as with
  | nil => exact .ok []
  | cons a rest ih =>
    obtain ⟨ha, hrest⟩ := List.forall_mem_cons.1 hf
    rw [List.mapM_cons]
    exact ha.bind fun b _ => (ih hrest).bind fun bs _ => .ok (b :: bs)

theorem nameOf {declared : Declared} {id : Int} (hid : (declared.table.get? id).isSome) :
    Intact (View.nameOf declared id) := by
  obtain ⟨symbol, hget⟩ := Option.isSome_iff_exists.1 hid
  simp only [View.nameOf, SymbolTable.lookup, hget]
  exact .ok _

end Intact

section

variable {v : View}

theorem intact_resolve {id : Int} (loc : Location) (hid : (v.declared.table.get? id).isSome) :
    Intact (v.resolve id loc) := by
  unfold View.resolve
  split
  · exact .ok _
  · refine (Intact.nameOf hid).bind fun name _ => ?_
    split
    · exact .unsupported _ _
    · exact .fault _ _ _

theorem intact_callee {callee : Expr} (actual : Nat) (loc : Location)
    (hcallee : callee.Valid v.declared.table) : Intact (v.callee callee actual loc) := by
  have hcallee := hcallee.unparen
  unfold View.callee
  split
  · rename_i id calleeLoc hunparen
    rw [hunparen] at hcallee
    refine (Intact.nameOf (hcallee.1.entered id rfl)).bind fun name _ => ?_
    split
    · exact .fault _ _ _
    · split
      · split
        · exact .ok _
        · exact .fault _ _ _
      · split
        · exact .ok _
        · exact .fault _ _ _
  · exact .fault _ _ _

mutual

theorem intact_lowerExpr : (e : Expr) → e.Valid v.declared.table → Intact (lowerExpr v e)
  | .literal _ _, _ => by
    rw [lowerExpr]
    exact .ok _
  | .var id loc, h => by
    rw [lowerExpr]
    exact (intact_resolve loc (h.1.entered id rfl)).bind fun _ _ => .ok _
  | .group inner _, h => by
    rw [lowerExpr]
    exact intact_lowerExpr inner h.2.1
  | .assign target value _, h => by
    have htarget : target.unparen.Valid v.declared.table := Expr.Valid.unparen (e := target) h.2.1
    rw [lowerExpr]
    split
    · rename_i id loc hunparen
      rw [hunparen] at htarget
      refine (intact_resolve loc (htarget.1.entered id rfl)).bind fun slot _ => ?_
      exact (intact_lowerExpr value h.2.2.1).bind fun _ _ => .ok _
    · exact .unsupported _ _
  | .unary .neg operand _, h => by
    rw [lowerExpr]
    exact (intact_lowerExpr operand h.2.1).bind fun _ _ => .ok _
  | .unary .not operand _, h => by
    rw [lowerExpr]
    exact (intact_lowerExpr operand h.2.1).bind fun _ _ => .ok _
  | .binary op left right _, h => by
    rw [lowerExpr]
    refine (intact_lowerExpr left h.2.1).bind fun _ _ => ?_
    exact (intact_lowerExpr right h.2.2.1).bind fun _ _ => .ok _
  | .call callee args loc, h => by
    rw [lowerExpr]
    refine (intact_callee args.length loc h.2.1).bind fun c _ => ?_
    cases c with
    | function f => exact (intact_lowerArgs args h.2.2).bind fun _ _ => .ok _
    | print => exact (intact_lowerPrinted args h.2.2).bind fun _ _ => .ok _

theorem intact_lowerArgs : (es : List Expr) →
    Outline.AllIn (fun h _ => h.Valid v.declared.table) (Expr.outlines es) →
    Intact (lowerArgs v es)
  | [], _ => by
    rw [lowerArgs]
    exact .ok _
  | e :: rest, h => by
    rw [lowerArgs]
    refine (intact_lowerExpr e h.1).bind fun _ _ => ?_
    exact (intact_lowerArgs rest h.2).bind fun _ _ => .ok _

theorem intact_lowerPrinted : (es : List Expr) →
    Outline.AllIn (fun h _ => h.Valid v.declared.table) (Expr.outlines es) →
    Intact (lowerPrinted v es)
  | [], _ => by
    rw [lowerPrinted]
    exact .ok _
  | e :: rest, h => by
    rw [lowerPrinted]
    split
    · exact .unsupported _ _
    · refine (intact_lowerExpr e h.1).bind fun code _ => ?_
      dsimp only
      split
      · exact .ok _
      · exact (intact_lowerPrinted rest h.2).bind fun _ _ => .ok _

end

end

/-- However far the lowering of a program is, it does not meet a tree that no source text gives. -/
def Lower.Intact {α : Type} (x : Lower α) : Prop := ∀ p, Wat.Intact (x p)

namespace Lower.Intact

variable {α β : Type} {declared : Declared} {role : Role}

theorem ok {x : Lower α} (h : ∀ p, ∃ a, x p = .ok a) : x.Intact := by
  intro p
  obtain ⟨a, hrun⟩ := h p
  rw [hrun]
  exact .ok a

theorem pure (a : α) : Lower.Intact (Pure.pure a) := fun _ => .ok _

theorem bind {x : Lower α} {f : α → Lower β} (hx : x.Intact) (hf : ∀ a, (f a).Intact) :
    Lower.Intact (x >>= f) :=
  fun p => (hx p).bind fun a _ => hf a.1 a.2

theorem inScope {body : Lower α} (hbody : body.Intact) : (Lower.inScope body).Intact :=
  (ok fun _ => ⟨_, rfl⟩).bind fun _ => hbody.bind fun a =>
    (ok fun _ => ⟨_, rfl⟩).bind fun _ => pure a

theorem expr (e : Expr) (h : e.Valid declared.table) : (Lower.expr declared role e).Intact :=
  fun p => (intact_lowerExpr (v := ⟨declared, role, p.scopes⟩) e h).bind fun _ _ => .ok _

theorem exprOr {e : Option Expr}
    (h : Outline.AllIn (fun h _ => h.Valid declared.table) (e.map Expr.outline).toList) :
    (Lower.exprOr declared role e).Intact := by
  cases e with
  | none => exact pure _
  | some e => exact expr e h.1

theorem isTopLevel : (Lower.isTopLevel role).Intact := ok fun _ => ⟨_, rfl⟩

theorem newPlace (id : Int) : (Lower.newPlace role id).Intact := by
  refine isTopLevel.bind fun top => ?_
  split
  · exact pure _
  · exact ok fun _ => ⟨_, rfl⟩

end Lower.Intact

open Lower.Intact in
mutual

theorem intact_lowerStmt {declared : Declared} {role : Role} :
    (s : Stmt) → s.Valid declared.table → (lowerStmt declared role s).Intact
  | .function id _ _ _ _ loc, h => by
    rw [lowerStmt]
    refine isTopLevel.bind fun top => ?_
    split
    · exact pure _
    · have hid := (Stmt.all_function.1 h).1.entered id rfl
      refine Lower.Intact.bind (fun p => (Intact.nameOf hid).bind fun _ _ => .ok _) fun name => ?_
      exact fun _ => .unsupported _ _
  | .var id type init _, h => by
    rw [lowerStmt]
    refine (exprOr h.2).bind fun value => (newPlace id).bind fun place => ?_
    exact (Lower.Intact.ok fun _ => ⟨_, rfl⟩).bind fun _ => pure _
  | .block body _, h => by
    rw [lowerStmt]
    exact inScope (intact_lowerStmts body h.2)
  | .conditional cond body none _, h => by
    rw [lowerStmt]
    exact (expr cond h.2.1).bind fun _ => (intact_lowerStmt body h.2.2.1).bind fun _ => pure _
  | .conditional cond body (some other) _, h => by
    rw [lowerStmt]
    exact (expr cond h.2.1).bind fun _ => (intact_lowerStmt body h.2.2.1).bind fun _ =>
      (intact_lowerStmt other h.2.2.2.1).bind fun _ => pure _
  | .loop cond body _, h => by
    rw [lowerStmt]
    exact (Lower.Intact.ok fun _ => ⟨_, rfl⟩).bind fun _ => (expr cond h.2.1).bind fun _ =>
      (intact_lowerStmt body h.2.2.1).bind fun _ => pure _
  | .returning value _, h => by
    rw [lowerStmt]
    exact (exprOr h.2).bind fun _ => pure _
  | .expr e _, h => by
    rw [lowerStmt]
    exact (expr e h.2.1).bind fun _ => pure _

theorem intact_lowerStmts {declared : Declared} {role : Role} :
    (ss : List Stmt) → Outline.AllIn (fun h _ => h.Valid declared.table) (Stmt.outlines ss) →
    (lowerStmts declared role ss).Intact
  | [], _ => by
    rw [lowerStmts]
    exact pure _
  | s :: rest, h => by
    rw [lowerStmts]
    exact (intact_lowerStmt s h.1).bind fun _ => (intact_lowerStmts rest h.2).bind fun _ => pure _

end

theorem intact_lowerFunction {declared : Declared} {f : FunctionDecl}
    (hbody : ∀ s ∈ f.body, s.Valid declared.table) : Intact (lowerFunction declared f) :=
  (Lower.Intact.inScope (intact_lowerStmts f.body (Stmt.allIn_outlines.2 hbody)) _).bind
    fun _ _ => .ok _

/-- The functions that are collected are declared in the program, so that their bodies are valid. -/
theorem intact_collectFunctions {table : SymbolTable} {found : List FunctionDecl} {ss : List Stmt}
    (hfound : ∀ f ∈ found, ∀ s ∈ f.body, s.Valid table) (hss : ∀ s ∈ ss, s.Valid table) :
    Intact (collectFunctions table found ss) ∧
      ∀ functions, collectFunctions table found ss = .ok functions →
        ∀ f ∈ functions, ∀ s ∈ f.body, s.Valid table := by
  induction ss generalizing found with
  | nil =>
    refine ⟨.ok found, ?_⟩
    rintro _ ⟨⟩
    exact hfound
  | cons s rest ih =>
    obtain ⟨hs, hrest⟩ := List.forall_mem_cons.1 hss
    cases s with
    | function id params result body bodyLoc loc =>
      obtain ⟨hhead, _, _, hbody⟩ := Stmt.all_function.1 hs
      rw [collectFunctions]
      split
      · have hname : Intact (View.nameOf ⟨table, [], []⟩ id) := .nameOf (hhead.entered id rfl)
        refine ⟨hname.bind fun _ _ => .unsupported _ _, ?_⟩
        intro functions hfunctions
        cases hlookup : View.nameOf ⟨table, [], []⟩ id <;> rw [hlookup] at hfunctions <;>
          cases hfunctions
      · exact ih (List.forall_mem_append.2 ⟨hfound, List.forall_mem_singleton.2 hbody⟩) hrest
    | var | block | conditional | loop | returning | expr => exact ih hfound hrest

theorem intact_lowerProgram {table : SymbolTable} {p : Program} (h : p.Valid table) :
    Intact (lowerProgram table p) := by
  obtain ⟨hcollect, hbodies⟩ := intact_collectFunctions (List.forall_mem_nil _) h
  refine hcollect.bind fun functions hfunctions => ?_
  let declared : Declared := ⟨table, functions, collectGlobals [] p.body⟩
  have hbody : (lowerStmts declared .start p.body).Intact :=
    intact_lowerStmts p.body (Stmt.allIn_outlines.2 h)
  refine (Intact.mapM fun f hf => ?_).bind fun funcs _ => (hbody _).bind fun _ _ => .ok _
  exact intact_lowerFunction (hbodies functions hfunctions f hf)

end Ember.Wat

namespace Ember

theorem Program.Valid.intact_toWat {table : SymbolTable} {p : Program} (h : p.Valid table) :
    Wat.Intact (p.toWat table) :=
  (Wat.intact_lowerProgram h.fold).bind fun _ _ => .ok _

end Ember
