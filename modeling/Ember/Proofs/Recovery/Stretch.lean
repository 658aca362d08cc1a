import Ember.Proofs.Parser.Exact

namespace Ember

/-- The lexemes by which a statement goes on behind a semicolon. -/
def Lexeme.linking : List Lexeme :=
  [.mark .semicolon, .mark .braceOpen, .mark .braceClose, .keyword .forKw, .keyword .doKw,
    .keyword .elseKw]

/-- A syntax error at one of the tokens. -/
def Diagnostic.Marks (d : Diagnostic) (tokens : List Token) : Prop :=
  d.code.phase = "Syntax" ∧ ∃ t ∈ tokens, d.loc = t.loc

namespace Parser

variable {α β : Type}

/-- The state with another report. -/
def State.noting (s : State) (r : Report) : State := { s with report := r }

theorem State.current_noting (s : State) (r : Report) : (s.noting r).current = s.current := rfl

theorem State.advanced_noting (s : State) (r : Report) :
    (s.noting r).advanced = s.advanced.noting r := by
  obtain ⟨ahead, finish, last, table, report⟩ := s
  cases ahead <;> rfl

/-- Tokens up to a semicolon, and the tokens behind it. -/
structure Stretch where
  front : List Token
  semicolon : Location
  rest : List Token
  single : ∀ t ∈ front, t.lexeme ∉ Lexeme.linking
  noElse : following rest .endOfFile ≠ .keyword .elseKw

namespace Stretch

variable {g : Stretch} {s : State} {p q : Parser α} {f : α → Parser β} {P Q R : State → Prop}
  {expr operand : Parser Expr} {stmt : Parser Stmt}

def tokens (g : Stretch) : List Token := g.front ++ [⟨.mark .semicolon, g.semicolon⟩]

/-- The semicolon is still ahead. -/
def Before (g : Stretch) (s : State) : Prop :=
  ∃ left, left <:+ g.front ∧ s.ahead = left ++ ⟨.mark .semicolon, g.semicolon⟩ :: g.rest

/-- The last token taken is one of the stretch, and the semicolon is still ahead. -/
def Inside (g : Stretch) (s : State) : Prop :=
  g.Before s ∧ ∃ t ∈ g.tokens, s.last = some t.loc

/-- The stretch is taken, and nothing behind it. -/
def Behind (g : Stretch) (s : State) : Prop := s.ahead = g.rest

/-- A parser has stopped before the semicolon, with a diagnostic at a token of the stretch. -/
structure Stopped (g : Stretch) (d : Diagnostic) (s : State) : Prop where
  before : g.Before s
  marks : d.Marks g.tokens

theorem Before.current_mem (h : g.Before s) : s.current ∈ g.tokens := by
  obtain ⟨left, hleft, hs⟩ := h
  cases left with
  | nil =>
    rw [State.current_eq hs]
    exact List.mem_append_right _ (List.mem_singleton_self _)
  | cons t left =>
    rw [State.current_eq hs]
    exact List.mem_append_left _ (hleft.subset List.mem_cons_self)

/-- Only the semicolon of the stretch links statements. -/
theorem Before.lexeme_ne (h : g.Before s) {l : Lexeme} (hl : l ∈ Lexeme.linking)
    (hne : l ≠ .mark .semicolon) : s.current.lexeme ≠ l := by
  rintro rfl
  rcases List.mem_append.1 h.current_mem with hmem | hmem
  · exact g.single _ hmem hl
  · exact hne (by rw [List.mem_singleton.1 hmem])

theorem Before.advanced (h : g.Before s) (hne : s.current.lexeme ≠ .mark .semicolon) :
    g.Inside s.advanced := by
  have hmem := h.current_mem
  obtain ⟨left, hleft, hs⟩ := h
  cases left with
  | nil => exact absurd (by rw [State.current_eq hs]) hne
  | cons t left =>
    rw [State.current_eq hs] at hmem
    rw [State.advanced_eq hs]
    exact ⟨⟨left, (List.suffix_cons t left).trans hleft, rfl⟩, t, hmem, rfl⟩

theorem Before.behind (h : g.Before s) (heq : s.current.lexeme = .mark .semicolon) :
    g.Behind s.advanced := by
  obtain ⟨left, hleft, hs⟩ := h
  cases left with
  | nil =>
    rw [State.advanced_eq hs]
    rfl
  | cons t left =>
    rw [State.current_eq hs] at heq
    exact absurd (heq ▸ by decide) (g.single t (hleft.subset List.mem_cons_self))

/-- From the state `s`, the parser reads to a state with the property `Q`, or stops inside the
stretch. It reports nothing more, and what was reported before makes no difference. -/
inductive Bounds (g : Stretch) (p : Parser α) (s : State) (Q : State → Prop) : Prop
  | reads (a : α) (s' : State) (run : ∀ r, p (s.noting r) = .ok a (s'.noting r)) (holds : Q s')
  | stops (d : Diagnostic) (s' : State) (run : ∀ r, p (s.noting r) = .error d (s'.noting r))
      (stopped : g.Stopped d s')

namespace Bounds

theorem congr (h : g.Bounds q s Q) (hpq : ∀ r, p (s.noting r) = q (s.noting r)) :
    g.Bounds p s Q := by
  cases h with
  | reads a s' run holds => exact .reads a s' (fun r => (hpq r).trans (run r)) holds
  | stops d s' run stopped => exact .stops d s' (fun r => (hpq r).trans (run r)) stopped

/-- A parser that reads in any case, and what follows it. -/
theorem step {a : α} {s' : State} (hp : ∀ r, p (s.noting r) = .ok a (s'.noting r))
    (hf : g.Bounds (f a) s' Q) : g.Bounds (p >>= f) s Q := by
  have hrun : ∀ r, (p >>= f) (s.noting r) = f a (s'.noting r) := fun r => bind_of_ok (hp r)
  cases hf with
  | reads b s'' run holds => exact .reads b s'' (fun r => (hrun r).trans (run r)) holds
  | stops d s'' run stopped => exact .stops d s'' (fun r => (hrun r).trans (run r)) stopped

theorem bind (hp : g.Bounds p s Q) (hf : ∀ a s', Q s' → g.Bounds (f a) s' R) :
    g.Bounds (p >>= f) s R := by
  cases hp with
  | reads a s' run holds => exact step run (hf a s' holds)
  | stops d s' run stopped => exact .stops d s' (fun r => bind_of_error (run r)) stopped

theorem pure {a : α} (h : Q s) : g.Bounds (Pure.pure a : Parser α) s Q :=
  .reads a s (fun _ => rfl) h

theorem current {f : Token → Parser α} (h : g.Bounds (f s.current) s Q) :
    g.Bounds (Parser.current >>= f) s Q :=
  h.congr fun _ => rfl

theorem advance {f : Unit → Parser α} (h : g.Bounds (f ()) s.advanced Q) :
    g.Bounds (Parser.advance >>= f) s Q :=
  step (fun r => congrArg (EStateM.Result.ok ()) (s.advanced_noting r)) h

theorem fail (hs : g.Before s) {code : Code} (hcode : code.phase = "Syntax")
    (args : List (String × Argument)) :
    g.Bounds (Parser.fail code s.current.loc args : Parser α) s Q :=
  .stops _ s (fun _ => rfl) ⟨hs, hcode, s.current, hs.current_mem, rfl⟩

theorem accept {l : Lexeme} {f : Bool → Parser α}
    (htake : s.current.lexeme = l → g.Bounds (f true) s.advanced Q)
    (hleave : s.current.lexeme ≠ l → g.Bounds (f false) s Q) :
    g.Bounds (Parser.accept l >>= f) s Q := by
  by_cases hl : s.current.lexeme = l
  · refine step (fun r => ?_) (htake hl)
    rw [← State.advanced_noting]
    exact accept_of_eq hl
  · exact step (fun r => accept_of_ne hl) (hleave hl)

/-- A lexeme that is missing is reported at the last token taken, which is one of the stretch. -/
theorem expect (hs : g.Inside s) {l : Lexeme} (htake : s.current.lexeme = l → Q s.advanced) :
    g.Bounds (Parser.expect l) s Q := by
  by_cases hl : s.current.lexeme = l
  · refine .reads s.current.loc s.advanced (fun r => ?_) (htake hl)
    rw [← State.advanced_noting]
    exact expect_of_eq hl
  · obtain ⟨hbefore, t, ht, hlast⟩ := hs
    let code : Code :=
      if s.current.lexeme = .endOfFile then .expectedSymbolAtEnd else .expectedSymbol
    have hphase : code.phase = "Syntax" := by
      unfold code
      split <;> rfl
    have hrun (r : Report) : Parser.expect l (s.noting r) =
        .error ⟨code, s.last.getD s.current.loc, [("symbol", .text l.spelling)]⟩ (s.noting r) := by
      rw [Parser.expect, current_bind, State.current_noting, if_neg hl]
      rfl
    exact .stops _ s hrun ⟨hbefore, hphase, t, ht, by rw [hlast]; rfl⟩

end Bounds

/-- From every state with the property `P`, the parser reads to one with the property `Q`, or stops
inside the stretch. -/
def Leads (g : Stretch) (P : State → Prop) (p : Parser α) (Q : State → Prop) : Prop :=
  ∀ s, P s → g.Bounds p s Q

namespace Leads

theorem bind (hp : g.Leads P p Q) (hf : ∀ a, g.Leads Q (f a) R) : g.Leads P (p >>= f) R :=
  fun s hs => (hp s hs).bind fun a => hf a

theorem pure {a : α} : g.Leads P (Pure.pure a : Parser α) P := fun _ hs => .pure hs

theorem map {f : α → β} (hp : g.Leads P p Q) : g.Leads P (f <$> p) Q := by
  rw [map_eq_pure_bind]
  exact hp.bind fun _ => pure

theorem ite {c : Prop} [Decidable c] (hp : g.Leads P p Q) (hq : g.Leads P q Q) :
    g.Leads P (if c then p else q) Q := by
  split
  · exact hp
  · exact hq

/-- What leads on from the start of the stretch leads on from every place in it. -/
theorem inside (hp : g.Leads g.Before p Q) : g.Leads g.Inside p Q := fun s hs => hp s hs.1

theorem current {f : Token → Parser α} (h : ∀ t, g.Leads P (f t) Q) :
    g.Leads P (Parser.current >>= f) Q :=
  fun s hs => .current (h s.current s hs)

theorem expect {l : Lexeme} (hl : l ≠ .mark .semicolon) :
    g.Leads g.Inside (Parser.expect l) g.Inside :=
  fun _ hs => .expect hs fun heq => hs.1.advanced (heq ▸ hl)

theorem expectSemicolon : g.Leads g.Inside (Parser.expect (.mark .semicolon)) g.Behind :=
  fun _ hs => .expect hs hs.1.behind

theorem identifier : g.Leads g.Before Parser.identifier g.Inside := by
  intro s hs
  refine .current ?_
  split
  · rename_i name hl
    exact .advance (.pure (hs.advanced (by simp [hl])))
  · exact .fail hs rfl _
  · exact .fail hs rfl _

theorem datatype : g.Leads g.Before Parser.datatype g.Inside := by
  intro s hs
  refine .current ?_
  split
  · rename_i type hl
    refine .advance (.pure (hs.advanced fun hsemicolon => ?_))
    rw [hsemicolon] at hl
    cases hl
  · split <;> exact .fail hs rfl _

theorem enter (name : String) (type : Datatype) :
    g.Leads g.Inside (Parser.enter name type) g.Inside :=
  fun s hs => .reads ↑(s.table.add name type).1 { s with table := (s.table.add name type).2 }
    (fun _ => rfl) hs

theorem retype (id : Int) (type : Datatype) :
    g.Leads g.Inside (modify fun s => { s with table := s.table.retype id type }) g.Inside :=
  fun s hs => .reads () { s with table := s.table.retype id type } (fun _ => rfl) hs

/-- A part that starts with a lexeme of its own, and may be absent. -/
theorem accept {l : Lexeme} (hl : l ≠ .mark .semicolon) {f : Bool → Parser α}
    (hf : ∀ b, g.Leads g.Inside (f b) Q) : g.Leads g.Inside (Parser.accept l >>= f) Q :=
  fun s hs => .accept (fun heq => hf true _ (hs.1.advanced (heq ▸ hl))) fun _ => hf false s hs

theorem iterateWithin {step : α → Parser (Option α)} (h : ∀ a, g.Leads P (step a) P) :
    ∀ (room : List Token) (a : α), g.Leads P (iterateWithin step room a) P
  | [], _ => pure
  | _ :: room, a => by
    refine (h a).bind fun b => ?_
    cases b with
    | none => exact pure
    | some b => exact iterateWithin h room b

theorem iterate {step : α → Parser (Option α)} (h : ∀ a, g.Leads P (step a) P) (a : α) :
    g.Leads P (iterate step a) P :=
  fun s hs => (iterateWithin h s.ahead a s hs).congr fun _ => rfl

theorem commaSeparated (h : g.Leads g.Before p g.Inside) :
    g.Leads g.Before (commaSeparated p) g.Inside :=
  h.bind fun first => iterate (fun _ => accept (by simp) fun _ =>
    ite (h.inside.bind fun _ => pure) pure) [first]

/-- A part that may be left out before a lexeme, and the lexeme. -/
theorem closedBy {l : Lexeme} (absent : Location → α) (h : g.Leads g.Before p g.Inside)
    (hl : g.Leads g.Inside (Parser.expect l) Q) : g.Leads g.Inside (closedBy l absent p) Q :=
  current fun _ => ite (pure.bind fun _ => hl.bind fun _ => pure)
    (h.inside.bind fun _ => hl.bind fun _ => pure)

theorem arguments (h : g.Leads g.Before expr g.Inside) :
    g.Leads g.Inside (arguments expr) g.Inside :=
  closedBy (fun _ => []) h.commaSeparated (expect (by simp))

theorem primary (h : g.Leads g.Before expr g.Inside) :
    g.Leads g.Before (primary expr) g.Inside := by
  intro s hs
  have htake {l : Lexeme} (hl : s.current.lexeme = l) (hne : l ≠ .mark .semicolon) :
      g.Inside s.advanced := hs.advanced (hl ▸ hne)
  refine .current ?_
  split
  · rename_i name hl
    exact .advance (((enter name .empty).bind fun _ => pure) _ (htake hl (by simp)))
  · rename_i hl
    exact .advance (.pure (htake hl (by simp)))
  · rename_i hl
    exact .advance (.pure (htake hl (by simp)))
  · rename_i digits hl
    split
    · exact .advance (.pure (htake hl (by simp)))
    · exact .fail hs rfl _
  · rename_i hl
    exact .advance ((h.inside.bind fun _ => (expect (by simp)).bind fun _ => pure) _
      (htake hl (by simp)))
  · exact .fail hs rfl _
  · exact .fail hs rfl _

theorem call (h : g.Leads g.Before expr g.Inside) : g.Leads g.Before (call expr) g.Inside :=
  h.primary.bind fun first => iterate (fun _ => accept (by simp) fun _ =>
    ite (h.arguments.bind fun _ => pure) pure) first

/-- An operator that is there is taken: the semicolon is none. -/
theorem operator {β : Type} {op? : Lexeme → Option β} (hop : op? (.mark .semicolon) = none)
    {b : β} (hs : g.Before s) (hb : op? s.current.lexeme = some b) : g.Inside s.advanced := by
  refine hs.advanced fun hl => ?_
  rw [hl, hop] at hb
  cases hb

theorem leftAssociative (precedence : Nat) (h : g.Leads g.Before operand g.Inside) :
    g.Leads g.Before (leftAssociative precedence operand) g.Inside := by
  refine h.bind fun first => iterate (fun left s hs => .current ?_) first
  split
  · rename_i op hop
    split
    · exact .advance ((h.inside.bind fun _ => pure) _ (operator rfl hs.1 hop))
    · exact .pure hs
  · exact .pure hs

theorem binary (h : g.Leads g.Before operand g.Inside) :
    g.Leads g.Before (binary operand) g.Inside :=
  leftAssociative 1 (leftAssociative 2 (leftAssociative 3 (leftAssociative 4 h)))

theorem assignmentWithin (h : g.Leads g.Before operand g.Inside) :
    ∀ room : List Token, g.Leads g.Before (assignmentWithin operand room) g.Inside
  | [] => h.binary
  | _ :: room => by
    refine h.binary.bind fun target s hs => .current ?_
    split
    · exact .pure hs
    · rename_i op hop
      exact .advance (((assignmentWithin h room).inside.bind fun _ => pure) _
        (operator rfl hs.1 hop))

theorem expressionOver (h : g.Leads g.Before operand g.Inside) :
    g.Leads g.Before (expressionOver operand) g.Inside :=
  fun s hs => (h.assignmentWithin s.ahead s hs).congr fun _ => rfl

theorem unary : ∀ room : Nat, g.Leads g.Before (unary room) g.Inside
  | 0 => fun _ hs => .current (.fail hs rfl _)
  | room + 1 => by
    intro s hs
    refine .current ?_
    split
    · rename_i op hop
      exact .advance (((unary room).inside.bind fun _ => pure) _ (operator rfl hs hop))
    · exact (unary room).expressionOver.call s hs

theorem expression (room : Nat) : g.Leads g.Before (expression room) g.Inside :=
  (unary room).expressionOver

theorem declarator (type : Datatype) (h : g.Leads g.Before expr g.Inside) :
    g.Leads g.Before (declarator type expr) g.Inside :=
  identifier.bind fun _ => (enter _ _).bind fun _ => accept (by simp) fun _ =>
    ite (h.inside.bind fun _ => pure) pure

theorem variableDecls (h : g.Leads g.Before expr g.Inside) :
    g.Leads g.Before (variableDecls expr) g.Behind :=
  datatype.bind fun type => (h.declarator type).commaSeparated.inside.bind fun _ =>
    expectSemicolon.bind fun _ => pure

theorem exprStmt (h : g.Leads g.Before expr g.Inside) :
    g.Leads g.Before (exprStmt expr) g.Inside :=
  current fun _ => h.bind fun _ => pure

theorem entry (h : g.Leads g.Before expr g.Inside) (hs : g.Leads g.Before stmt g.Behind) :
    g.Leads g.Before (entry expr stmt) g.Behind :=
  current fun _ => ite h.variableDecls (hs.bind fun _ => pure)

theorem condition (h : g.Leads g.Before expr g.Inside) :
    g.Leads g.Inside (condition expr) g.Inside :=
  (expect (by simp)).bind fun _ => h.inside.bind fun _ => (expect (by simp)).bind fun _ => pure

/-- No `else` stands behind the stretch. -/
theorem conditional (h : g.Leads g.Before expr g.Inside) (hs : g.Leads g.Before stmt g.Behind)
    (loc : Location) (hs₀ : g.Inside s.advanced) :
    g.Bounds (conditional expr stmt loc) s g.Behind := by
  refine .advance ((h.condition.bind fun _ => hs.inside.bind fun _ s' hs' => ?_) _ hs₀)
  refine .accept (fun helse => ?_) fun _ => .pure hs'
  rw [current_lexeme, hs'] at helse
  exact absurd helse g.noElse

theorem whileLoop (h : g.Leads g.Before expr g.Inside) (hs : g.Leads g.Before stmt g.Behind)
    (loc : Location) (hs₀ : g.Inside s.advanced) :
    g.Bounds (whileLoop expr stmt loc) s g.Behind :=
  .advance ((h.condition.bind fun _ => hs.inside.bind fun _ => pure) _ hs₀)

theorem returning (h : g.Leads g.Before expr g.Inside) (loc : Location)
    (hs₀ : g.Inside s.advanced) : g.Bounds (returning expr loc) s g.Behind := by
  rw [returning_eq]
  exact .advance (((h.map.closedBy _ expectSemicolon).bind fun _ => pure) _ hs₀)

/-- A statement takes the semicolon and nothing behind it. -/
theorem statement : ∀ room : Nat, g.Leads g.Before (statement room) g.Behind
  | 0 => fun _ hs => .current (.fail hs rfl _)
  | room + 1 => by
    have he := expression (g := g) room
    have hstmt := statement room
    intro s hs
    have htake {l : Lexeme} (hl : s.current.lexeme = l) (hne : l ≠ .mark .semicolon) :
        g.Inside s.advanced := hs.advanced (hl ▸ hne)
    refine .current ?_
    split
    · rename_i hl
      exact absurd hl (hs.lexeme_ne (by decide) (by simp))
    · rename_i hl
      exact he.conditional hstmt _ (htake hl (by simp))
    · rename_i hl
      exact absurd hl (hs.lexeme_ne (by decide) (by simp))
    · rename_i hl
      exact absurd hl (hs.lexeme_ne (by decide) (by simp))
    · rename_i hl
      exact he.whileLoop hstmt _ (htake hl (by simp))
    · rename_i hl
      exact he.returning _ (htake hl (by simp))
    · exact (he.exprStmt.bind fun _ => expectSemicolon.bind fun _ => pure) s hs

theorem param : g.Leads g.Before param g.Inside :=
  current fun _ => datatype.bind fun _ => identifier.inside.bind fun _ =>
    (enter _ _).bind fun _ => pure

theorem params : g.Leads g.Inside params g.Inside :=
  (expect (by simp)).bind fun _ =>
    closedBy (fun _ => []) param.commaSeparated (expect (by simp))

/-- Without a brace there is no block. -/
theorem block : g.Leads g.Inside (block expr stmt) Q := by
  rw [block_eq]
  exact bind (Q := fun _ => False)
    (fun s hs => .expect hs fun hl => hs.1.lexeme_ne (by decide) (by simp) hl)
    fun _ _ hfalse => hfalse.elim

/-- Nor is there a function. -/
theorem function (room : Nat) (hs : g.Before s) (hfn : s.current.lexeme = .keyword .fnKw) :
    g.Bounds (function room) s Q :=
  .current (.advance ((identifier.inside.bind fun _ => (enter _ _).bind fun _ =>
    params.bind fun _ => (expect (by simp)).bind fun _ => datatype.inside.bind fun _ =>
      (retype _ _).bind fun _ => block.bind fun _ => pure) _ (hs.advanced (by simp [hfn]))))

theorem declaration (room : Nat) : g.Leads g.Before (declaration room) g.Behind := by
  intro s hs
  refine .current ?_
  split
  · rename_i hfn
    exact (function room hs hfn).bind fun _ _ h => .pure h
  · exact (expression room).entry (statement room) s hs

end Leads

end Stretch

end Parser

end Ember
