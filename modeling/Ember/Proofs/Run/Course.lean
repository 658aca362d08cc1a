import Ember.Proofs.Fold.Machine

namespace Ember

open Exec

/-- What can be seen of a run from inside. -/
inductive Moment where
  /-- A statement or an expression is about to run. -/
  | point (m : Machine)
  /-- An operator is applied to two values. -/
  | applied (op : BinaryOp) (left right : Value)

/-- The moments that a computation comes by, from a machine on. -/
abbrev Course := Machine → List Moment

namespace Course

variable {α : Type}

def nothing : Course := fun _ => []

/-- Starts with the machine as it is. -/
def entering (c : Course) : Course := fun m => .point m :: c m

/-- The moments of `p` and then those of what follows it, if it does not stop early. -/
def andThen (c : Course) (p : Exec α) (k : α → Course) : Course := fun m =>
  c m ++ match p m with
    | .ok a m => k a m
    | .error _ _ => []

/-- What follows a computation that comes by no moment. -/
def after (p : Exec α) (k : α → Course) : Course := nothing.andThen p k

/-- The moments of what runs in a new frame. -/
def inFrame (setting : Setting) (scope : List Nat) (body : List Nat → Course) : Course :=
  after (note setting .push) fun _ => after Folds.enter fun frame => body (frame :: scope)

/-- The moments of a loop with the given test and body. -/
def whileLoop (testCourse : Course) (test : Exec Bool) (bodyCourse : Course) (body : Exec Flow) :
    Nat → Course
  | 0 => nothing
  | rounds + 1 =>
    testCourse.andThen test fun holds =>
      if holds then
        bodyCourse.andThen body fun
          | .next => whileLoop testCourse test bodyCourse body rounds
          | .returned _ => nothing
      else nothing

end Course

/-- The moments of calls of functions. -/
abbrev CallCourse := Closure → List Value → Course

def Callable.course (calls : CallCourse) (args : List Value) : Callable → Course
  | closure f => calls f args
  | print => Course.nothing

open Course

mutual

/-- The moments of evaluating an expression. -/
def Expr.course (setting : Setting) (invoke : Invoke) (calls : CallCourse) (scope : List Nat) :
    Expr → Course
  | .literal _ _ | .var _ _ => entering nothing
  | .group inner _ => entering (inner.course setting invoke calls scope)
  | .assign target value _ => entering <|
    match target.unparen with
    | .var id loc =>
      after (lookup setting scope id loc) fun _ => value.course setting invoke calls scope
    | _ => nothing
  | .unary _ operand _ => entering (operand.course setting invoke calls scope)
  | .binary op left right _ => entering <|
    (left.course setting invoke calls scope).andThen (left.eval setting invoke scope) fun a =>
      (right.course setting invoke calls scope).andThen (right.eval setting invoke scope) fun b _ =>
        [.applied op a b]
  | .call callee args loc => entering <|
    (callee.course setting invoke calls scope).andThen (callee.eval setting invoke scope) fun
      | .func f =>
        after (f.checkArity args.length loc) fun _ =>
          (Expr.courseAll setting invoke calls scope args).andThen
            (Expr.evalAll setting invoke scope args) fun values => f.course calls values
      | _ => nothing

def Expr.courseAll (setting : Setting) (invoke : Invoke) (calls : CallCourse)
    (scope : List Nat) : List Expr → Course
  | [] => nothing
  | e :: rest =>
    (e.course setting invoke calls scope).andThen (e.eval setting invoke scope) fun _ =>
      Expr.courseAll setting invoke calls scope rest

end

def Expr.courseOr (setting : Setting) (invoke : Invoke) (calls : CallCourse)
    (scope : List Nat) : Option Expr → Course
  | none => nothing
  | some e => e.course setting invoke calls scope

mutual

/-- The moments of running a statement. -/
def Stmt.course (setting : Setting) (invoke : Invoke) (calls : CallCourse) (scope : List Nat) :
    Stmt → Course
  | .function _ _ _ _ _ _ => entering nothing
  | .var _ _ init _ => entering <|
    after (note setting (.exec .varDecl)) fun _ =>
      Expr.courseOr setting invoke calls scope init
  | .block body _ => entering <|
    after (note setting (.exec .block)) fun _ =>
      inFrame setting scope fun scope => Stmt.courseAll setting invoke calls scope body
  | .conditional cond body none _ => entering <|
    after (note setting (.exec .conditional)) fun _ =>
      (cond.course setting invoke calls scope).andThen (cond.eval setting invoke scope) fun v =>
        if v.isTruthy then body.course setting invoke calls scope else nothing
  | .conditional cond body (some other) _ => entering <|
    after (note setting (.exec .conditional)) fun _ =>
      (cond.course setting invoke calls scope).andThen (cond.eval setting invoke scope) fun v =>
        if v.isTruthy then body.course setting invoke calls scope
        else other.course setting invoke calls scope
  | .loop cond body _ => entering <|
    after (note setting (.exec .loop)) fun _ =>
      whileLoop (cond.course setting invoke calls scope)
        (Value.isTruthy <$> cond.eval setting invoke scope)
        (body.course setting invoke calls scope) (body.exec setting invoke scope) setting.budget
  | .returning value _ => entering <|
    after (note setting (.exec .returning)) fun _ =>
      Expr.courseOr setting invoke calls scope value
  | .expr e _ => entering <|
    after (note setting (.exec .exprStmt)) fun _ => e.course setting invoke calls scope

def Stmt.courseAll (setting : Setting) (invoke : Invoke) (calls : CallCourse)
    (scope : List Nat) : List Stmt → Course
  | [] => nothing
  | s :: rest =>
    (s.course setting invoke calls scope).andThen (s.exec setting invoke scope) fun
      | .next => Stmt.courseAll setting invoke calls scope rest
      | .returned _ => nothing

end

namespace Closure

/-- The moments of a call, inside which calls may nest `room` deep. -/
def courseWithin (setting : Setting) : (room : Nat) → CallCourse
  | 0, _, _ => nothing
  | room + 1, f, args =>
    after (note setting (.call f.name)) fun _ =>
      inFrame setting f.scope fun scope =>
        after (bind scope f.params args) fun _ =>
          after (note setting (.exec .block)) fun _ =>
            inFrame setting scope fun scope =>
              Stmt.courseAll setting (invokeWithin setting room) (courseWithin setting room) scope
                f.body

def course (setting : Setting) : CallCourse := courseWithin setting maxCalls

end Closure

namespace Session

/-- The moments of running a program in a fresh session. -/
def runCourse (s : Session) (options : RunOptions) (p : Program) : List Moment :=
  let s := start s.table
  let setting := s.setting options
  Stmt.courseAll setting (Closure.invoke setting) (Closure.course setting) scope p.body
    ⟨s.frames, "", []⟩

/-- The moments of running statements in a session. -/
def courseAll (setting : Setting) : List Stmt → Course
  | [] => nothing
  | .expr e _ :: rest =>
    (e.course setting (Closure.invoke setting) (Closure.course setting) scope).andThen
      (e.eval setting (Closure.invoke setting) scope) fun _ => courseAll setting rest
  | s :: rest =>
    (s.course setting (Closure.invoke setting) (Closure.course setting) scope).andThen
      (s.exec setting (Closure.invoke setting) scope) fun
        | .next => courseAll setting rest
        | .returned _ => nothing

/-- The moments of running a program in the session. -/
def execCourse (s : Session) (options : RunOptions) (p : Program) : List Moment :=
  courseAll (s.setting options) p.body ⟨s.frames, "", []⟩

end Session

end Ember
