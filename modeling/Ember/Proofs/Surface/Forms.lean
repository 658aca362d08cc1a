import Ember.Proofs.Parser.Steps
import Ember.Proofs.Run.Lands
import Ember.Proofs.Surface.Run

namespace Ember

open Exec

/-- The loops that the tree expresses by others, with their parts as they are read. -/
inductive Surface.Loop where
  /-- A loop with clauses. The condition, if there is one, and the step stand at places that the
  tree tells. -/
  | clauses (init : List Stmt) (cond : Option Expr) (condLoc : Location)
    (step : Option (Expr × Location)) (body : Stmt)
  /-- A loop with the test after the body. -/
  | testedLast (body : Stmt) (cond : Expr)

/-- Runs `body` and goes on with it while `test` holds, the test being made for at most the given
number of rounds. A return ends the loop. -/
def Exec.repeatWhile (body : Exec Flow) (test : Exec Bool) (rounds : Nat) : Exec Flow := do
  match ← body with
  | .returned value => return .returned value
  | .next =>
    match rounds with
    | 0 => throw .exhausted
    | rounds + 1 => if ← test then repeatWhile body test rounds else return .next

namespace Surface.Loop

section

variable (setting : Setting) (invoke : Invoke) (scope : List Nat)

/-- A condition that is absent holds. -/
def test : Option Expr → Exec Bool
  | none => return true
  | some cond => return (← cond.eval setting invoke scope).isTruthy

/-- The step after a round, if the body has not returned. -/
def andStep (step : Option (Expr × Location)) : Flow → Exec Flow
  | .returned value => return .returned value
  | .next =>
    match step with
    | none => return .next
    | some (e, _) => do
      let _ ← e.eval setting invoke scope
      return .next

/-- What a loop does. One with clauses has a frame of its own, in which its first clause is run once
and the others in each round. -/
def exec : Loop → Exec Flow
  | clauses init cond _ step body =>
    inFrame setting scope fun scope => do
      match ← Stmt.execAll setting invoke scope init with
      | .returned value => return .returned value
      | .next =>
        whileLoop (test setting invoke scope cond)
          (do andStep setting invoke scope step (← body.exec setting invoke scope)) setting.budget
  | testedLast body cond =>
    repeatWhile (body.exec setting invoke scope) (test setting invoke scope (some cond))
      setting.budget

/-- What a loop does, and the statements after it. -/
def execThen (form : Loop) (rest : List Stmt) : Exec Flow := do
  match ← form.exec setting invoke scope with
  | .next => Stmt.execAll setting invoke scope rest
  | .returned value => return .returned value

end

/-- The tree of a loop. -/
def tree (loc : Location) : Loop → Stmt
  | clauses init cond condLoc step body =>
    let test := cond.getD (.literal (.bool true) condLoc)
    let body := Parser.withStep body (step.map fun (e, loc) => .expr e loc)
    .block (init ++ [.loop test body loc]) loc
  | testedLast body cond => .block [body, .loop cond body loc] loc

def body : Loop → Stmt
  | clauses _ _ _ _ body | testedLast body _ => body

end Surface.Loop

namespace Exec

/-- A loop that tests after the body runs the body and then goes on as one that tests before it. -/
theorem repeatWhile_eq (body : Exec Flow) (test : Exec Bool) (rounds : Nat) :
    repeatWhile body test rounds = (do
      match ← body with
      | .returned value => return .returned value
      | .next => whileLoop test body rounds) := by
  induction rounds with
  | zero => rw [repeatWhile]; rfl
  | succ rounds ih =>
    rw [repeatWhile, whileLoop]
    refine bind_congr fun flow => ?_
    cases flow with
    | returned v => rfl
    | next =>
      refine bind_congr fun holds => ?_
      cases holds with
      | false => rfl
      | true =>
        simp only [if_true, ih]
        refine bind_congr fun flow => ?_
        cases flow <;> rfl

end Exec

namespace Stmt

variable (setting : Setting) (invoke : Invoke) (scope : List Nat)

theorem execAll_append (ss rest : List Stmt) :
    execAll setting invoke scope (ss ++ rest) = (do
      match ← execAll setting invoke scope ss with
      | .next => execAll setting invoke scope rest
      | .returned value => return .returned value) := by
  induction ss with
  | nil => simp only [List.nil_append, execAll, pure_bind]
  | cons s ss ih =>
    simp only [List.cons_append, execAll, ih, bind_assoc]
    refine bind_congr fun flow => ?_
    cases flow with
    | next => rfl
    | returned v => simp only [pure_bind]

theorem execAll_singleton (s : Stmt) :
    execAll setting invoke scope [s] = s.exec setting invoke scope := by
  conv_rhs => rw [← bind_pure (s.exec setting invoke scope)]
  simp only [execAll]
  refine bind_congr fun flow => ?_
  cases flow <;> rfl

end Stmt

namespace Surface.Loop

variable {setting : Setting} {invoke : Invoke} {w : Placement} {s s' : List Nat}

theorem placed_test (hinvoke : invoke.Uniform) (hscope : w.Scope s s') (cond : Option Expr)
    (condLoc : Location) :
    Placed w Same (test setting invoke s cond)
      (Value.isTruthy <$> (cond.getD (.literal (.bool true) condLoc)).eval setting invoke s') := by
  cases cond with
  | none =>
    simp only [test, Option.getD_none, Expr.eval, map_pure]
    exact .pure rfl
  | some cond =>
    simp only [test, Option.getD_some, map_eq_pure_bind]
    exact (Placed.eval hinvoke hscope cond).bind fun _ _ _ _ hv => .pure hv.isTruthy_eq

/-- The body and the step run in a frame of their own in the tree, which is spare: the body declares
nothing there. -/
theorem placed_withStep (hinvoke : invoke.Uniform) (hscope : w.Scope s s') {body : Stmt}
    (hbody : body.Contained) (step : Option (Expr × Location)) :
    Placed w Flow.Placed
      (do andStep setting invoke s step (← body.exec setting invoke s))
      ((Parser.withStep body (step.map fun (e, loc) => .expr e loc)).exec setting invoke s') := by
  cases step with
  | none =>
    have hsame : (do andStep setting invoke s none (← body.exec setting invoke s)) =
        body.exec setting invoke s := by
      conv_rhs => rw [← bind_pure (body.exec setting invoke s)]
      refine bind_congr fun flow => ?_
      cases flow <;> rfl
    rw [hsame]
    exact Placed.exec hinvoke hscope body (.inl hbody)
  | some step =>
    obtain ⟨e, loc⟩ := step
    simp only [Option.map_some, Parser.withStep, Stmt.exec]
    refine (Placed.inSpare fun hspare => ?_).noted _
    have hscope' : w.spared.Scope s (w.size :: s') :=
      .spare hspare ((Placement.Grows.spared w).scope hscope)
    simp only [Stmt.execAll]
    refine (Placed.exec hinvoke hscope' body (.inl hbody)).bind fun w₁ hw₁ flow flow' hflow => ?_
    cases hflow with
    | returned hv => exact .pure (.returned hv)
    | next =>
      simp only [andStep, Stmt.exec, bind_assoc]
      refine .noted _ ?_
      refine (Placed.eval hinvoke (hw₁.scope hscope') e).bind fun _ _ _ _ _ => ?_
      exact .pure .next

/-- A loop and its tree run alike. -/
theorem placed_tree (hinvoke : invoke.Uniform) (hscope : w.Scope s s') {form : Loop}
    (hform : form.body.Contained) (loc : Location) :
    Placed w Flow.Placed (form.exec setting invoke s) ((form.tree loc).exec setting invoke s') := by
  cases form with
  | clauses init cond condLoc step body =>
    simp only [exec, tree, Stmt.exec]
    refine (Placed.inFrame ?_).noted _
    have hscope' : w.opened.Scope (w.places.length :: s) (w.size :: s') :=
      .placed Placement.at_opened ((Placement.Grows.opened w).scope hscope)
    rw [Stmt.execAll_append]
    refine (Placed.execAll hinvoke hscope' Placement.heads_opened init).bind
      fun w₁ hw₁ flow flow' hflow => ?_
    cases hflow with
    | returned hv => exact .pure (.returned hv)
    | next =>
      simp only [Stmt.execAll_singleton, Stmt.exec]
      refine .noted _ (.whileLoop (fun w₂ hw₂ => ?_) (fun w₂ hw₂ => ?_) _)
      · exact placed_test hinvoke ((hw₁.trans hw₂).scope hscope') cond condLoc
      · exact placed_withStep hinvoke ((hw₁.trans hw₂).scope hscope') hform step
  | testedLast body cond =>
    simp only [exec, tree, Stmt.exec, repeatWhile_eq]
    refine (Placed.inSpare fun hspare => ?_).noted _
    have hscope' : w.spared.Scope s (w.size :: s') :=
      .spare hspare ((Placement.Grows.spared w).scope hscope)
    rw [Stmt.execAll]
    refine (Placed.exec hinvoke hscope' body (.inl hform)).bind fun w₁ hw₁ flow flow' hflow => ?_
    cases hflow with
    | returned hv => exact .pure (.returned hv)
    | next =>
      simp only [Stmt.execAll_singleton, Stmt.exec]
      refine .noted _ (.whileLoop (fun w₂ hw₂ => ?_) (fun w₂ hw₂ => ?_) _)
      · exact placed_test hinvoke ((hw₁.trans hw₂).scope hscope') (some cond) .none
      · exact Placed.exec hinvoke ((hw₁.trans hw₂).scope hscope') body (.inl hform)

end Surface.Loop

namespace Parser

open Surface

/-- The parts of a loop with clauses, in the order in which they stand. -/
def clauses (expression : Parser Expr) (statement : Parser Stmt) : Parser Loop := do
  advance
  let _ ← expect (.mark .parenOpen)
  let init ← forInit expression
  let condLoc := (← current).loc
  let cond ← closedBy (.mark .semicolon) (fun _ => none) (some <$> expression)
  let stepLoc := (← current).loc
  let step ← closedBy (.mark .parenClose) (fun _ => none) (some <$> expression)
  return .clauses init cond condLoc (step.map (·, stepLoc)) (← statement)

/-- The parts of a loop with the test after the body. -/
def testedLast (expression : Parser Expr) (statement : Parser Stmt) : Parser Loop := do
  advance
  let body ← statement
  let _ ← expect (.keyword .whileKw)
  let cond ← condition expression
  let _ ← expect (.mark .semicolon)
  return .testedLast body cond

theorem forCondition_clause (expression : Parser Expr) :
    forCondition expression = (do
      let t ← current
      let cond ← closedBy (.mark .semicolon) (fun _ => none) (some <$> expression)
      return cond.getD (.literal (.bool true) t.loc)) := by
  funext s
  have hcurrent : ∀ {α : Type} (f : Token → Parser α), (current >>= f) s = f s.current s :=
    fun _ => rfl
  simp only [forCondition, closedBy, bind_assoc, hcurrent]
  split <;> simp only [map_eq_pure_bind, bind_assoc, pure_bind, Option.getD_none, Option.getD_some]

theorem forStep_clause (expression : Parser Expr) :
    forStep expression = (do
      let t ← current
      let step ← closedBy (.mark .parenClose) (fun _ => none) (some <$> expression)
      return step.map fun e => .expr e t.loc) := by
  funext s
  have hcurrent : ∀ {α : Type} (f : Token → Parser α), (current >>= f) s = f s.current s :=
    fun _ => rfl
  simp only [forStep, exprStmt, closedBy, map_eq_pure_bind, bind_assoc, hcurrent]
  split <;> simp only [bind_assoc, pure_bind, hcurrent, Option.map_none, Option.map_some]

theorem forLoop_eq (expression : Parser Expr) (statement : Parser Stmt) (loc : Location) :
    forLoop expression statement loc = Loop.tree loc <$> clauses expression statement := by
  simp only [forLoop, clauses, forCondition_clause, forStep_clause, map_eq_pure_bind, bind_assoc,
    pure_bind, Loop.tree, Option.map_map, Function.comp_def]

theorem doLoop_eq (expression : Parser Expr) (statement : Parser Stmt) (loc : Location) :
    doLoop expression statement loc = Loop.tree loc <$> testedLast expression statement := by
  simp only [doLoop, testedLast, map_eq_pure_bind, bind_assoc, pure_bind]
  rfl

/-- Whatever the parser reads is as told. -/
def Reads {α : Type} (post : α → Prop) (p : Parser α) : Prop :=
  ∀ s a s', p s = .ok a s' → post a

namespace Reads

variable {α β : Type} {post : α → Prop} {post' : β → Prop} {p : Parser α} {k : α → Parser β}

theorem pure {a : α} (h : post a) : Reads post (Pure.pure a) := by
  rintro s _ _ ⟨⟩
  exact h

theorem fail (code : Code) (loc : Location) (args : List (String × Argument)) :
    Reads post (Parser.fail code loc args) := fun _ _ _ h => by cases h

theorem bind (hp : Reads post p) (hk : ∀ a, post a → Reads post' (k a)) :
    Reads post' (p >>= k) := by
  intro s b s' hrun
  simp only [Bind.bind, EStateM.bind] at hrun
  split at hrun
  · rename_i a t hfirst
    exact hk a (hp s a t hfirst) t b s' hrun
  · cases hrun

/-- What comes first is of no account. -/
theorem after (hk : ∀ a, Reads post' (k a)) : Reads post' (p >>= k) := by
  have hp : Reads (fun _ => True) p := fun _ _ _ _ => trivial
  exact hp.bind fun a _ => hk a

end Reads

/-- A statement declares nothing outside its own blocks. -/
theorem contained_statement : (depth : Nat) → Reads Stmt.Contained (statement depth)
  | 0 => .after fun _ => .fail _ _ _
  | depth + 1 => by
    have ih := contained_statement depth
    refine .after fun t => ?_
    split
    · exact .after fun b => .pure trivial
    · refine .after fun _ => .after fun cond => ih.bind fun body hbody => .after fun hasElse => ?_
      split
      · exact ih.bind fun other hother => .pure ⟨hbody, hother⟩
      · exact .pure hbody
    · exact .after fun _ => .after fun _ => .after fun _ => .after fun _ => .after fun _ =>
        .pure trivial
    · exact .after fun _ => .after fun _ => .after fun _ => .after fun _ => .after fun _ =>
        .after fun _ => .pure trivial
    · exact .after fun _ => .after fun _ => ih.bind fun body hbody => .pure hbody
    · rw [returning_eq]
      exact .after fun _ => .after fun _ => .pure trivial
    · have hexpr : Reads Stmt.Contained (exprStmt (expression depth)) :=
        .after fun _ => .after fun _ => .pure trivial
      exact hexpr.bind fun stmt hstmt => .after fun _ => .pure hstmt

/-- The body of a loop is one statement, which declares nothing outside its own blocks. -/
theorem contained_clauses (depth : Nat) :
    Reads (fun form => form.body.Contained) (clauses (expression depth) (statement depth)) :=
  .after fun _ => .after fun _ => .after fun _ => .after fun _ => .after fun _ => .after fun _ =>
    .after fun _ => (contained_statement depth).bind fun _ hbody => .pure hbody

theorem contained_testedLast (depth : Nat) :
    Reads (fun form => form.body.Contained) (testedLast (expression depth) (statement depth)) :=
  .after fun _ => (contained_statement depth).bind fun _ hbody => .after fun _ => .after fun _ =>
    .after fun _ => .pure hbody

end Parser

/-- An assignment as it is read. The operator stands at `loc`. -/
structure Surface.Assignment where
  op : AssignOp
  target : Expr
  value : Expr
  loc : Location

namespace Surface

/-- What an assignment that combines does to a variable. It reads the variable, evaluates the
right-hand side and joins the two. Then it stores what comes out, narrowed, in the binding that the
name has. -/
def combine (setting : Setting) (invoke : Invoke) (scope : List Nat) (op : BinaryOp) (id : Int)
    (varLoc : Location) (value : Expr) (loc : Location) : Exec Value := do
  let (_, found) ← lookup setting scope id varLoc
  let operand ← value.eval setting invoke scope
  let result ← Value.binary op found.value operand loc
  let (frame, b) ← lookup setting scope id varLoc
  let stored := result.narrow b.type
  Exec.assign frame id stored
  return stored

/-- The tree of an assignment. -/
def Assignment.tree (a : Assignment) : Expr :=
  .assign a.target (Parser.assigned a.op a.target a.value a.loc) a.target.loc

end Surface

theorem Expr.eval_unparen (setting : Setting) (invoke : Invoke) (scope : List Nat) :
    (e : Expr) → e.unparen.eval setting invoke scope = e.eval setting invoke scope
  | .group inner _ => by
    simp only [unparen, eval]
    exact eval_unparen setting invoke scope inner
  | .literal _ _ | .var _ _ | .assign _ _ _ | .unary _ _ _ | .binary _ _ _ _ | .call _ _ _ => rfl

/-- The target is looked up twice in the tree, before the right-hand side is evaluated. It is still
the same binding when the result is stored, since an expression declares no name. -/
theorem Surface.eval_compound {setting : Setting} {invoke : Invoke} (hinvoke : invoke.Steady)
    {scope : List Nat} {m : Machine} (hscope : ∀ frame ∈ scope, frame < m.frames.size)
    {op : BinaryOp} {target value : Expr} {loc : Location} {id : Int} {varLoc : Location}
    (htarget : target.unparen = .var id varLoc) :
    (Assignment.tree ⟨.compound op, target, value, loc⟩).eval setting invoke scope m =
      combine setting invoke scope op id varLoc value loc m := by
  simp only [Assignment.tree, Parser.assigned, Expr.eval, htarget, combine, bind_assoc]
  cases hlookup : lookup setting scope id varLoc m with
  | error e m₁ => rw [bind_of_error hlookup, bind_of_error hlookup]
  | ok x m₁ =>
    obtain ⟨rfl, hfind⟩ := lookup_eq_ok_iff.1 hlookup
    have hread : target.eval setting invoke scope m₁ = .ok x.2.value m₁ := by
      rw [← Expr.eval_unparen, htarget, Expr.eval, bind_of_ok hlookup]
      rfl
    rw [bind_of_ok hlookup, bind_of_ok hlookup, bind_of_ok hread]
    have hevolves : m₁.Evolves none ((value.eval setting invoke scope).final m₁) :=
      Exec.Steady.eval hinvoke scope value m₁
    cases hvalue : value.eval setting invoke scope m₁ with
    | error e m₂ => rw [bind_of_error hvalue, bind_of_error hvalue]
    | ok operand m₂ =>
      rw [final_of_ok hvalue] at hevolves
      rw [bind_of_ok hvalue, bind_of_ok hvalue]
      cases hresult : Value.binary op x.2.value operand loc m₂ with
      | error e m₃ => rw [bind_of_error hresult, bind_of_error hresult]
      | ok result m₃ =>
        obtain rfl := (Lands.binary op x.2.value operand loc).of_ok hresult
        have hsame := findIn_of_evolves hevolves hscope id
        rw [hfind, Option.map_some] at hsame
        obtain ⟨y, hfind', hy⟩ := Option.map_eq_some_iff.1 hsame
        obtain ⟨hframe, htype⟩ := Prod.mk.inj hy
        rw [bind_of_ok hresult, bind_of_ok hresult,
          bind_of_ok (lookup_of_findIn setting hfind' varLoc)]
        simp only [hframe, htype]

namespace Parser

open Surface

/-- An operand, or an assignment to it. -/
def operandOrAssignment (operand : Parser Expr) (room : List Token) :
    Parser (Expr ⊕ Assignment) := do
  let target ← binary operand
  let t ← current
  match assignOp? t.lexeme with
  | none => return .inl target
  | some op =>
    advance
    return .inr ⟨op, target, ← assignmentWithin operand room, t.loc⟩

theorem assignmentWithin_cons (operand : Parser Expr) (t : Token) (room : List Token) :
    assignmentWithin operand (t :: room) =
      Sum.elim id Assignment.tree <$> operandOrAssignment operand room := by
  simp only [assignmentWithin, operandOrAssignment, map_eq_pure_bind, bind_assoc]
  refine bind_congr fun target => bind_congr fun t => ?_
  cases assignOp? t.lexeme with
  | none => rfl
  | some op => simp only [bind_assoc, pure_bind]; rfl

end Parser

end Ember
