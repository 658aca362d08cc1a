import Ember.Proofs.Parser.Steps

namespace Ember.Parser

variable {α : Type} {item : Parser α} {operand expr : Parser Expr} {stmt : Parser Stmt}

namespace Hungry

theorem primary (h : Orderly expr) : Hungry (primary expr) := by
  intro s
  by_cases hs : s.current.lexeme = .endOfFile
  · intro a s' hok
    rw [Parser.primary, current_bind, hs] at hok
    cases hok
  refine .current_bind ?_
  split
  · exact .advance_bind hs ((Orderly.enter _ _).bind fun _ => .pure _)
  · exact .advance_bind hs (.pure _)
  · exact .advance_bind hs (.pure _)
  · split
    · exact .advance_bind hs (.pure _)
    · exact .fail _ _ _ _
  · exact .advance_bind hs (h.bind fun _ => (Orderly.expect _).bind fun _ => .pure _)
  · exact .fail _ _ _ _
  · exact .fail _ _ _ _

theorem call (h : Orderly expr) : Hungry (call expr) :=
  (primary h).bind_left fun first => .iterate h.callStep first

theorem leftAssociative (precedence : Nat) (ho : Orderly operand) (h : Hungry operand) :
    Hungry (leftAssociative precedence operand) :=
  h.bind_left fun first => .iterate (.chainStep precedence ho) first

theorem binary (ho : Orderly operand) (h : Hungry operand) : Hungry (binary operand) :=
  leftAssociative 1 (ho.leftAssociative 4 |>.leftAssociative 3 |>.leftAssociative 2)
    (leftAssociative 2 (ho.leftAssociative 4 |>.leftAssociative 3)
      (leftAssociative 3 (ho.leftAssociative 4) (leftAssociative 4 ho h)))

theorem unary : ∀ room : Nat, Hungry (unary room)
  | 0 => fun _ _ _ h => by cases h
  | room + 1 => by
    refine bind_right .current fun t => ?_
    split
    · exact bind_right .advance fun _ => (unary room).bind_left fun _ => .pure _
    · exact call (Orderly.unary room).expressionOver

theorem variableDecls (h : Orderly expr) : Hungry (variableDecls expr) :=
  datatype.bind_left fun type => (h.declarator type).commaSeparated.bind fun _ =>
    (Orderly.expect _).bind fun _ => .pure _

theorem block (h : Orderly expr) (hs : Orderly stmt) : Hungry (block expr stmt) :=
  (expect (by simp)).bind_left fun loc => h.blockTail hs loc []

theorem condition (h : Orderly expr) : Hungry (condition expr) :=
  (expect (by simp)).bind_left fun _ => h.bind fun _ => (Orderly.expect _).bind fun _ => .pure _

/-- Every statement takes a token, if only the mark or keyword that it needs. -/
theorem statement : ∀ room : Nat, Hungry (statement room)
  | 0 => fun _ _ _ h => by cases h
  | room + 1 => by
    have he := Orderly.expression room
    have hs := Orderly.statement room
    have hsemi : Hungry (Parser.expect (.mark .semicolon)) := expect (by simp)
    refine bind_right .current fun t => ?_
    split
    · exact (block he hs).bind_left fun _ => .pure _
    · exact bind_right .advance fun _ => (condition he).bind_left fun _ => hs.bind fun _ =>
        (Orderly.accept _).bind fun _ => .ite (hs.bind fun _ => .pure _) (.pure _)
    · exact bind_right .advance fun _ => bind_right hs fun _ =>
        (expect (by simp)).bind_left fun _ => he.condition.bind fun _ =>
          (Orderly.expect _).bind fun _ => .pure _
    · exact bind_right .advance fun _ => (expect (by simp)).bind_left fun _ =>
        he.forInit.bind fun _ => he.forCondition.bind fun _ => he.forStep.bind fun _ =>
          hs.bind fun _ => .pure _
    · exact bind_right .advance fun _ => (condition he).bind_left fun _ => hs.bind fun _ => .pure _
    · exact bind_right .advance fun _ => bind_right .current fun _ =>
        ite (bind_right (.pure _) fun _ => hsemi.bind_left fun _ => .pure _)
          (bind_right (he.map _) fun _ => hsemi.bind_left fun _ => .pure _)
    · exact bind_right he.exprStmt fun _ => hsemi.bind_left fun _ => .pure _

theorem entry (h : Orderly expr) (hs : Hungry stmt) : Hungry (entry expr stmt) :=
  bind_right .current fun _ => ite (variableDecls h) (hs.bind_left fun _ => .pure _)

theorem function (room : Nat) : Hungry (function room) :=
  bind_right .current fun _ => bind_right .advance fun _ => identifier.bind_left fun _ =>
    (Orderly.enter _ _).bind fun _ => Orderly.params.bind fun _ => (Orderly.expect _).bind fun _ =>
      Orderly.datatype.bind fun _ => (Orderly.retype _ _).bind fun _ =>
        ((Orderly.expression room).block (.statement room)).bind fun _ => .pure _

theorem declaration (room : Nat) : Hungry (declaration room) :=
  bind_right .current fun _ => ite ((function room).bind_left fun _ => .pure _)
    (entry (.expression room) (statement room))

end Hungry

/-- What a step that starts with a lexeme of its own adds, it adds behind that lexeme. -/
theorem productive_accept {l : Lexeme} (hl : l ≠ .endOfFile) {f : α → Parser (Option α)}
    (hf : ∀ a, Orderly (f a)) :
    Productive fun a => (do if ← accept l then f a else return none : Parser (Option α)) where
  atEnd a s h := by
    have hne : s.current.lexeme ≠ l := by simpa [State.current, h] using hl.symm
    rw [bind_of_ok (accept_of_ne hne)]
    rfl
  takes a s b s' h := by
    by_cases hs : s.current.lexeme = l
    · rw [bind_of_ok (accept_of_eq hs)] at h
      have hle := (hf a).length_le s.advanced
      change f a s.advanced = _ at h
      rw [h] at hle
      exact Nat.lt_of_le_of_lt hle (length_advanced (hs ▸ hl))
    · rw [bind_of_ok (accept_of_ne hs)] at h
      cases h

theorem productive_commaStep (h : Orderly item) : Productive (commaStep item) :=
  productive_accept (by simp) fun _ => h.bind fun _ => .pure _

theorem productive_callStep (h : Orderly expr) : Productive (callStep expr) :=
  productive_accept (by simp) fun _ => h.arguments.bind fun _ => .pure _

theorem productive_chainStep (precedence : Nat) (h : Orderly operand) :
    Productive (chainStep precedence operand) where
  atEnd a s hs := by
    rw [chainStep, current_bind, State.current, hs]
    rfl
  takes a s b s' hs := by
    rw [chainStep, current_bind] at hs
    cases hop : binaryOp? s.current.lexeme with
    | none =>
      rw [hop] at hs
      cases hs
    | some op =>
      rw [hop] at hs
      have hnext : s.current.lexeme ≠ .endOfFile := fun hend => by simp [hend, binaryOp?] at hop
      dsimp only at hs
      split at hs
      · exact TakesAt.advance_bind hnext (h.bind fun _ => .pure _) _ _ hs
      · cases hs

/-- Giving up drops a token, unless a closing brace stands first. -/
theorem length_pastSemicolon (last : Option Location) (t : Token) (rest : List Token)
    (h : t.lexeme ≠ .mark .braceClose) :
    (pastSemicolon last (t :: rest)).2.length < (t :: rest).length := by
  unfold pastSemicolon
  split
  · simp
  · have := (Orderly.pastSemicolon_suffix (some t.loc) rest).length_le
    simp only [List.length_cons]
    omega

/-- Giving up at the level of the program drops a token in any case. -/
theorem length_pastBraces_pastSemicolon (last last' : Option Location) (t : Token)
    (rest : List Token) :
    (pastBraces last (pastSemicolon last' (t :: rest)).2).2.length < (t :: rest).length := by
  by_cases h : t.lexeme = .mark .braceClose
  · have hstay : (pastSemicolon last' (t :: rest)).2 = t :: rest := by simp [pastSemicolon, h]
    rw [hstay, pastBraces, if_pos h]
    have := (Orderly.pastBraces_suffix (some t.loc) rest).length_le
    simp only [List.length_cons]
    omega
  · have hsemi := length_pastSemicolon last' t rest h
    have := (Orderly.pastBraces_suffix last (pastSemicolon last' (t :: rest)).2).length_le
    omega

/-- An attempt that fails leaves either fewer tokens or the same ones. -/
theorem ahead_of_error {p : Parser α} (h : Orderly p) {s s' : State} {d : Diagnostic}
    (hs : p s = .error d s') : s'.ahead.length < s.ahead.length ∨ s'.ahead = s.ahead := by
  have hsuffix := (h s).1
  rw [hs] at hsuffix
  rcases Nat.lt_or_ge s'.ahead.length s.ahead.length with hlt | hge
  · exact .inl hlt
  · exact .inr (hsuffix.eq_of_length (Nat.le_antisymm hsuffix.length_le hge))

theorem attempt_of_ok {p : Parser α} {s s' : State} {a : α} (h : p s = .ok a s') :
    attempt p s = .ok (.ok a) s' := by
  simp only [attempt, h]

theorem attempt_of_error {p : Parser α} {s s' : State} {d : Diagnostic} (h : p s = .error d s') :
    attempt p s = .ok (.error d) s' := by
  simp only [attempt, h]

theorem entryStep_of_end {s : State} (body : List Stmt)
    (h : s.current.lexeme = .mark .braceClose ∨ s.current.lexeme = .endOfFile) :
    entryStep expr stmt body s = .ok none s := by
  rw [entryStep, current_bind, if_pos h]
  rfl

theorem entryStep_of_ok {s s' : State} {stmts : List Stmt} (body : List Stmt)
    (h : ¬(s.current.lexeme = .mark .braceClose ∨ s.current.lexeme = .endOfFile))
    (hs : entry expr stmt s = .ok stmts s') :
    entryStep expr stmt body s = .ok (some (body ++ stmts)) s' := by
  rw [entryStep, current_bind, if_neg h, bind_of_ok (attempt_of_ok hs)]
  rfl

theorem entryStep_of_error {s s' : State} {d : Diagnostic} (body : List Stmt)
    (h : ¬(s.current.lexeme = .mark .braceClose ∨ s.current.lexeme = .endOfFile))
    (hs : entry expr stmt s = .error d s') :
    entryStep expr stmt body s = .ok (some body)
      { s' with
        report := s'.report ++ [d]
        last := (pastSemicolon s'.last s'.ahead).1
        ahead := (pastSemicolon s'.last s'.ahead).2 } := by
  rw [entryStep, current_bind, if_neg h, bind_of_ok (attempt_of_error hs)]
  rfl

theorem declarationStep_of_end {room : Nat} {s : State} (body : List Stmt)
    (h : s.current.lexeme = .endOfFile) : declarationStep room body s = .ok none s := by
  rw [declarationStep, current_bind, if_pos h]
  rfl

theorem declarationStep_of_ok {room : Nat} {s s' : State} {stmts : List Stmt} (body : List Stmt)
    (h : s.current.lexeme ≠ .endOfFile) (hs : declaration room s = .ok stmts s') :
    declarationStep room body s = .ok (some (body ++ stmts)) s' := by
  rw [declarationStep, current_bind, if_neg h, bind_of_ok (attempt_of_ok hs)]
  rfl

theorem declarationStep_of_error {room : Nat} {s s' : State} {d : Diagnostic} (body : List Stmt)
    (h : s.current.lexeme ≠ .endOfFile) (hs : declaration room s = .error d s') :
    declarationStep room body s = .ok (some body)
      { s' with
        report := s'.report ++ [d]
        last := (pastBraces (pastSemicolon s'.last s'.ahead).1 (pastSemicolon s'.last s'.ahead).2).1
        ahead := (pastBraces (pastSemicolon s'.last s'.ahead).1
          (pastSemicolon s'.last s'.ahead).2).2 } := by
  rw [declarationStep, current_bind, if_neg h, bind_of_ok (attempt_of_error hs)]
  rfl

theorem productive_entryStep (h : Orderly expr) (ho : Orderly stmt) (hs : Hungry stmt) :
    Productive (entryStep expr stmt) where
  atEnd a s hend := by
    rw [entryStep, current_bind, State.current, hend]
    rfl
  takes body s b s' hstep := by
    rw [entryStep, current_bind] at hstep
    split at hstep
    · cases hstep
    rename_i hnext
    rw [not_or] at hnext
    cases hentry : entry expr stmt s with
    | ok stmts s₁ =>
      rw [bind_of_ok (attempt_of_ok hentry)] at hstep
      cases hstep
      exact Hungry.entry h hs s stmts s' hentry
    | error d s₁ =>
      rw [bind_of_ok (attempt_of_error hentry)] at hstep
      cases hstep
      change (pastSemicolon s₁.last s₁.ahead).2.length < _
      rcases ahead_of_error (h.entry ho) hentry with hlt | heq
      · exact Nat.lt_of_le_of_lt (Orderly.pastSemicolon_suffix _ _).length_le hlt
      · rw [heq]
        unfold State.current at hnext
        cases hahead : s.ahead with
        | nil => simp [hahead] at hnext
        | cons t rest =>
          rw [hahead] at hnext
          exact length_pastSemicolon _ t rest hnext.1

/-- A block is its next entry and what is left then. -/
theorem blockTail_eq (h : Productive (entryStep expr stmt)) (loc : Location) (body : List Stmt) :
    blockTail expr stmt loc body =
      entryStep expr stmt body >>= blockAfter expr stmt loc body := by
  rw [blockTail, h.iterate_eq, bind_assoc]
  congr 1
  funext b
  cases b with
  | none => exact pure_bind _ _
  | some body => rfl

theorem productive_declarationStep (room : Nat) : Productive (declarationStep room) where
  atEnd a s hend := by
    rw [declarationStep, current_bind, State.current, hend]
    rfl
  takes body s b s' hstep := by
    rw [declarationStep, current_bind] at hstep
    split at hstep
    · cases hstep
    rename_i hnext
    cases hentry : declaration room s with
    | ok stmts s₁ =>
      rw [bind_of_ok (attempt_of_ok hentry)] at hstep
      cases hstep
      exact Hungry.declaration room s stmts s' hentry
    | error d s₁ =>
      rw [bind_of_ok (attempt_of_error hentry)] at hstep
      cases hstep
      change (pastBraces (pastSemicolon s₁.last s₁.ahead).1
        (pastSemicolon s₁.last s₁.ahead).2).2.length < _
      rcases ahead_of_error (.declaration room) hentry with hlt | heq
      · have hbraces := (Orderly.pastBraces_suffix (pastSemicolon s₁.last s₁.ahead).1
          (pastSemicolon s₁.last s₁.ahead).2).length_le
        have hsemi := (Orderly.pastSemicolon_suffix s₁.last s₁.ahead).length_le
        omega
      · rw [heq]
        unfold State.current at hnext
        cases hahead : s.ahead with
        | nil => simp [hahead] at hnext
        | cons t rest => exact length_pastBraces_pastSemicolon _ _ t rest

/-- The value of an assignment is read from fewer tokens than the target was, so that two
parsers which agree on fewer tokens are as good as each other. -/
private theorem assignmentTail_congr (ho : Orderly operand) (h : Hungry operand)
    {value value' : Parser Expr} {s : State}
    (hv : ∀ s' : State, s'.ahead.length < s.ahead.length → value s' = value' s') :
    (binary operand >>= assignmentTail value) s = (binary operand >>= assignmentTail value') s := by
  cases hs : binary operand s with
  | error d s' => rw [bind_of_error hs, bind_of_error hs]
  | ok target s' =>
    rw [bind_of_ok hs, bind_of_ok hs, assignmentTail, assignmentTail, current_bind, current_bind]
    have hlt := Hungry.binary ho h s target s' hs
    have hle := Orderly.advance.length_le s'
    cases assignOp? s'.current.lexeme with
    | none => rfl
    | some op =>
      have heq := hv s'.advanced (Nat.lt_of_le_of_lt hle hlt)
      change (value >>= _) s'.advanced = (value' >>= _) s'.advanced
      simp only [bind, EStateM.bind, heq]

/-- As long as there is an element for each token ahead, the bound on assignments does not
show. -/
theorem assignmentWithin_eq (ho : Orderly operand) (h : Hungry operand) :
    ∀ (room : List Token) (s : State), s.ahead.length ≤ room.length →
      assignmentWithin operand room s = expressionOver operand s := by
  suffices hrooms : ∀ (room room' : List Token) (s : State), s.ahead.length ≤ room.length →
      s.ahead.length ≤ room'.length →
      assignmentWithin operand room s = assignmentWithin operand room' s from
    fun room s hroom => hrooms room s.ahead s hroom (Nat.le_refl _)
  -- A parser without tokens fails at its first operand, whatever the bound.
  have hnil : ∀ (t : Token) (room : List Token) (s : State), s.ahead = [] →
      assignmentWithin operand [] s = assignmentWithin operand (t :: room) s := by
    intro t room s hs
    change binary operand s = (binary operand >>= assignmentTail _) s
    cases hb : binary operand s with
    | error d s' => rw [bind_of_error hb]
    | ok target s' => simpa [hs] using Hungry.binary ho h s target s' hb
  intro room
  induction room with
  | nil =>
    intro room' s hroom hroom'
    cases room' with
    | nil => rfl
    | cons t room' => exact hnil t room' s (by simpa using hroom)
  | cons t room ih =>
    intro room' s hroom hroom'
    cases room' with
    | nil => exact (hnil t room s (by simpa using hroom')).symm
    | cons t' room' =>
      refine assignmentTail_congr ho h fun s' hlt => ih room' s' ?_ ?_
      · simp only [List.length_cons] at hroom
        omega
      · simp only [List.length_cons] at hroom'
        omega

/-- An expression is an operation, and behind an assignment mark an expression again. -/
theorem expressionOver_eq (ho : Orderly operand) (h : Hungry operand) :
    expressionOver operand = binary operand >>= assignmentTail (expressionOver operand) := by
  funext s
  rw [← assignmentWithin_eq ho h (⟨.endOfFile, .none⟩ :: s.ahead) s (by simp)]
  refine assignmentTail_congr ho h fun s' hlt => assignmentWithin_eq ho h _ s' ?_
  omega

end Ember.Parser
