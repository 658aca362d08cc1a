import Ember.Proofs.Parser.Outcome

namespace Ember.Parser

variable {α β : Type} {p q : Parser α}

/-- `q` does what `p` does, save where `p` reports that a text nests too deep. -/
structure Deepens (q p : Parser α) : Prop where
  orderly : Orderly p
  same : ∀ s, (∃ d ∈ diagnostics (p s), d.code = .nestingTooDeep) ∨ q s = p s

namespace Deepens

theorem refl (h : Orderly p) : Deepens p p := ⟨h, fun _ => .inr rfl⟩

theorem bind {k k' : α → Parser β} (hp : Deepens q p) (hk : ∀ a, Deepens (k' a) (k a)) :
    Deepens (q >>= k') (p >>= k) := by
  refine ⟨hp.orderly.bind fun a => (hk a).orderly, fun s => ?_⟩
  rcases hp.same s with ⟨d, hd, hcode⟩ | hsame
  · exact .inl ⟨d, mem_diagnostics_bind (fun a => (hk a).orderly) hd, hcode⟩
  · cases hrun : p s with
    | ok a s' =>
      rw [bind_of_ok hrun, bind_of_ok (hsame.trans hrun)]
      exact (hk a).same s'
    | error d s' =>
      rw [bind_of_error hrun, bind_of_error (hsame.trans hrun)]
      exact .inr rfl

theorem map (f : α → β) (hp : Deepens q p) : Deepens (f <$> q) (f <$> p) := by
  rw [map_eq_pure_bind, map_eq_pure_bind]
  exact hp.bind fun a => refl (.pure _)

theorem ite {c : Prop} [Decidable c] {p' q' : Parser α} (hp : Deepens q p) (hp' : Deepens q' p') :
    Deepens (if c then q else q') (if c then p else p') := by
  split
  · exact hp
  · exact hp'

theorem iterate {step step' : α → Parser (Option α)} (h : ∀ a, Deepens (step' a) (step a))
    (a : α) : Deepens (iterate step' a) (iterate step a) := by
  refine (refl .get).bind fun s => ?_
  generalize s.ahead = room
  induction room generalizing a with
  | nil => exact refl (.pure a)
  | cons t room ih =>
    refine (h a).bind fun b => ?_
    cases b with
    | none => exact refl (.pure a)
    | some b => exact ih b

section

variable {item item' : Parser α} {operand operand' expr expr' : Parser Expr}
  {stmt stmt' : Parser Stmt}

theorem commaSeparated (h : Deepens item' item) :
    Deepens (commaSeparated item') (commaSeparated item) := by
  refine h.bind fun first => iterate (fun items => (refl (.accept _)).bind fun more => ?_) _
  exact ite (h.bind fun _ => refl (.pure _)) (refl (.pure _))

theorem closedBy (l : Lexeme) (absent : Location → α) (h : Deepens item' item) :
    Deepens (closedBy l absent item') (closedBy l absent item) := by
  refine (refl .current).bind fun _ => ite ?_ ?_
  · exact (refl (.pure _)).bind fun _ => (refl (.expect l)).bind fun _ => refl (.pure _)
  · exact h.bind fun _ => (refl (.expect l)).bind fun _ => refl (.pure _)

theorem primary (h : Deepens expr' expr) : Deepens (primary expr') (primary expr) := by
  refine (refl .current).bind fun t => ?_
  split
  · exact refl ((Orderly.advance).bind fun _ => (Orderly.enter _ _).bind fun _ => .pure _)
  · exact refl (Orderly.advance.bind fun _ => .pure _)
  · exact refl (Orderly.advance.bind fun _ => .pure _)
  · split
    · exact refl (Orderly.advance.bind fun _ => .pure _)
    · exact refl (.fail _ _ _)
  · exact (refl .advance).bind fun _ =>
      h.bind fun _ => (refl (.expect _)).bind fun _ => refl (.pure _)
  · exact refl (.fail _ _ _)
  · exact refl (.fail _ _ _)

theorem call (h : Deepens expr' expr) : Deepens (call expr') (call expr) := by
  refine h.primary.bind fun first => iterate (fun callee => ?_) first
  refine (refl (.accept _)).bind fun opened => ite ?_ (refl (.pure _))
  rw [arguments_eq, arguments_eq]
  exact (h.commaSeparated.closedBy _ _).bind fun _ => refl (.pure _)

theorem leftAssociative (precedence : Nat) (h : Deepens operand' operand) :
    Deepens (leftAssociative precedence operand') (leftAssociative precedence operand) := by
  refine h.bind fun first => iterate (fun left => (refl .current).bind fun t => ?_) first
  split
  · refine ite ?_ (refl (.pure _))
    exact (refl .advance).bind fun _ => h.bind fun _ => refl (.pure _)
  · exact refl (.pure _)

theorem binary (h : Deepens operand' operand) : Deepens (binary operand') (binary operand) :=
  (((h.leftAssociative 4).leftAssociative 3).leftAssociative 2).leftAssociative 1

theorem assignmentWithin (h : Deepens operand' operand) :
    ∀ room : List Token, Deepens (assignmentWithin operand' room) (assignmentWithin operand room)
  | [] => h.binary
  | _ :: room => by
    refine h.binary.bind fun target => (refl .current).bind fun t => ?_
    split
    · exact refl (.pure _)
    · exact (refl .advance).bind fun _ =>
        (h.assignmentWithin room).bind fun _ => refl (.pure _)

theorem expressionOver (h : Deepens operand' operand) :
    Deepens (expressionOver operand') (expressionOver operand) :=
  (refl .get).bind fun _ => h.assignmentWithin _

theorem declarator (type : Datatype) (h : Deepens expr' expr) :
    Deepens (declarator type expr') (declarator type expr) :=
  (refl .identifier).bind fun _ => (refl (.enter _ _)).bind fun _ =>
    (refl (.accept _)).bind fun _ => ite (h.bind fun _ => refl (.pure _)) (refl (.pure _))

theorem variableDecls (h : Deepens expr' expr) :
    Deepens (variableDecls expr') (variableDecls expr) :=
  (refl .datatype).bind fun type => (h.declarator type).commaSeparated.bind fun _ =>
    (refl (.expect _)).bind fun _ => refl (.pure _)

theorem exprStmt (h : Deepens expr' expr) : Deepens (exprStmt expr') (exprStmt expr) :=
  (refl .current).bind fun _ => h.bind fun _ => refl (.pure _)

theorem entry (h : Deepens expr' expr) (hs : Deepens stmt' stmt) :
    Deepens (entry expr' stmt') (entry expr stmt) :=
  (refl .current).bind fun _ => ite h.variableDecls (hs.bind fun _ => refl (.pure _))

theorem entryStep (h : Deepens expr' expr) (hs : Deepens stmt' stmt) (body : List Stmt) :
    Deepens (entryStep expr' stmt' body) (entryStep expr stmt body) := by
  refine ⟨.entryStep h.orderly hs.orderly body, fun s => ?_⟩
  by_cases hend : s.current.lexeme = .mark .braceClose ∨ s.current.lexeme = .endOfFile
  · rw [entryStep_of_end body hend, entryStep_of_end body hend]
    exact .inr rfl
  · rcases (h.entry hs).same s with ⟨d, hd, hcode⟩ | hsame
    · exact .inl ⟨d, mem_diagnostics_entryStep body hend hd, hcode⟩
    · right
      cases hrun : Parser.entry expr stmt s with
      | ok stmts s' =>
        rw [entryStep_of_ok body hend hrun, entryStep_of_ok body hend (hsame.trans hrun)]
      | error d s' =>
        rw [entryStep_of_error body hend hrun, entryStep_of_error body hend (hsame.trans hrun)]

theorem block (h : Deepens expr' expr) (hs : Deepens stmt' stmt) :
    Deepens (block expr' stmt') (block expr stmt) :=
  (refl (.expect _)).bind fun _ => (iterate (h.entryStep hs) []).bind fun _ =>
    (refl (.expect _)).bind fun _ => refl (.pure _)

theorem condition (h : Deepens expr' expr) : Deepens (condition expr') (condition expr) :=
  (refl (.expect _)).bind fun _ => h.bind fun _ => (refl (.expect _)).bind fun _ =>
    refl (.pure _)

theorem conditional (h : Deepens expr' expr) (hs : Deepens stmt' stmt) (loc : Location) :
    Deepens (conditional expr' stmt' loc) (conditional expr stmt loc) :=
  (refl .advance).bind fun _ => h.condition.bind fun _ => hs.bind fun _ =>
    (refl (.accept _)).bind fun _ => ite (hs.bind fun _ => refl (.pure _)) (refl (.pure _))

theorem whileLoop (h : Deepens expr' expr) (hs : Deepens stmt' stmt) (loc : Location) :
    Deepens (whileLoop expr' stmt' loc) (whileLoop expr stmt loc) :=
  (refl .advance).bind fun _ => h.condition.bind fun _ => hs.bind fun _ => refl (.pure _)

theorem doLoop (h : Deepens expr' expr) (hs : Deepens stmt' stmt) (loc : Location) :
    Deepens (doLoop expr' stmt' loc) (doLoop expr stmt loc) :=
  (refl .advance).bind fun _ => hs.bind fun _ => (refl (.expect _)).bind fun _ =>
    h.condition.bind fun _ => (refl (.expect _)).bind fun _ => refl (.pure _)

theorem forInit (h : Deepens expr' expr) : Deepens (forInit expr') (forInit expr) :=
  (refl (.accept _)).bind fun _ => ite (refl (.pure _)) <| (refl .current).bind fun _ =>
    ite h.variableDecls <| h.exprStmt.bind fun _ => (refl (.expect _)).bind fun _ =>
      refl (.pure _)

theorem forStep (h : Deepens expr' expr) : Deepens (forStep expr') (forStep expr) := by
  rw [forStep_eq, forStep_eq]
  exact (h.exprStmt.map some).closedBy _ _

theorem forLoop (h : Deepens expr' expr) (hs : Deepens stmt' stmt) (loc : Location) :
    Deepens (forLoop expr' stmt' loc) (forLoop expr stmt loc) :=
  (refl .advance).bind fun _ => (refl (.expect _)).bind fun _ => h.forInit.bind fun _ =>
    (h.closedBy _ _).bind fun _ => h.forStep.bind fun _ => hs.bind fun _ => refl (.pure _)

theorem returning (h : Deepens expr' expr) (loc : Location) :
    Deepens (returning expr' loc) (returning expr loc) := by
  rw [returning_eq, returning_eq]
  exact (refl .advance).bind fun _ => ((h.map some).closedBy _ _).bind fun _ => refl (.pure _)

end

theorem unary : ∀ room : Nat, Deepens (unary (room + 1)) (unary room)
  | 0 => ⟨.unary 0, fun s => .inl ⟨_, List.mem_append_right _ List.mem_cons_self, rfl⟩⟩
  | room + 1 => by
    refine (refl .current).bind fun t => ?_
    split
    · exact (refl .advance).bind fun _ => (unary room).bind fun _ => refl (.pure _)
    · exact (unary room).expressionOver.call

theorem expression (room : Nat) : Deepens (expression (room + 1)) (expression room) :=
  (unary room).expressionOver

theorem statement : ∀ room : Nat, Deepens (statement (room + 1)) (statement room)
  | 0 => ⟨.statement 0, fun s => .inl ⟨_, List.mem_append_right _ List.mem_cons_self, rfl⟩⟩
  | room + 1 => by
    have he := expression room
    have hs := statement room
    refine (refl .current).bind fun t => ?_
    split
    · exact (he.block hs).bind fun _ => refl (.pure _)
    · exact he.conditional hs _
    · exact he.doLoop hs _
    · exact he.forLoop hs _
    · exact he.whileLoop hs _
    · exact he.returning _
    · exact he.exprStmt.bind fun _ => (refl (.expect _)).bind fun _ => refl (.pure _)

theorem declaration (room : Nat) : Deepens (declaration (room + 1)) (declaration room) := by
  refine (refl .current).bind fun t => ite ?_ ((expression room).entry (statement room))
  refine Deepens.bind ?_ fun _ => refl (.pure _)
  refine (refl .current).bind fun _ => (refl .advance).bind fun _ => ?_
  refine (refl .identifier).bind fun _ => (refl (.enter _ _)).bind fun _ => ?_
  refine (refl .params).bind fun _ => (refl (.expect _)).bind fun _ => ?_
  refine (refl .datatype).bind fun _ => (refl (.retype _ _)).bind fun _ => ?_
  exact ((expression room).block (statement room)).bind fun _ => refl (.pure _)

theorem declarationStep (room : Nat) (body : List Stmt) :
    Deepens (declarationStep (room + 1) body) (declarationStep room body) := by
  refine ⟨.declarationStep room body, fun s => ?_⟩
  by_cases hend : s.current.lexeme = .endOfFile
  · rw [declarationStep_of_end body hend, declarationStep_of_end body hend]
    exact .inr rfl
  · rcases (declaration room).same s with ⟨d, hd, hcode⟩ | hsame
    · exact .inl ⟨d, mem_diagnostics_declarationStep body hend hd, hcode⟩
    · right
      cases hrun : Parser.declaration room s with
      | ok stmts s' =>
        rw [declarationStep_of_ok body hend hrun,
          declarationStep_of_ok body hend (hsame.trans hrun)]
      | error d s' =>
        rw [declarationStep_of_error body hend hrun,
          declarationStep_of_error body hend (hsame.trans hrun)]

/-- A program that does not nest too deep is read the same with one more level. -/
theorem declarations (room : Nat) : Deepens (declarations (room + 1)) (declarations room) := by
  rw [declarations_eq, declarations_eq]
  exact iterate (declarationStep room) []

end Deepens

end Ember.Parser
