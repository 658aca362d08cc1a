import Ember.Proofs.Parser.Rules

namespace Ember

namespace Lexeme

/-- The lexemes that an operand without operators before it starts with. -/
def startsCall : Lexeme → Bool
  | identifier _ | integer _ | keyword .trueKw | keyword .falseKw | mark .parenOpen => true
  | _ => false

/-- The lexemes that an expression starts with. -/
def startsPhrase (l : Lexeme) : Bool := l.startsCall || (Parser.unaryOp? l).isSome

/-- Nothing of an operand, and no operator that binds as tight as `precedence`, starts with the
lexeme. -/
def Stops (precedence : Nat) (l : Lexeme) : Prop :=
  l ≠ .mark .parenOpen ∧ ∀ op, Parser.binaryOp? l = some op → op.precedence < precedence

/-- Nothing of an expression starts with the lexeme. -/
def Closes (l : Lexeme) : Prop := l.Stops 1 ∧ Parser.assignOp? l = none

theorem Stops.mono {p q : Nat} {l : Lexeme} (h : l.Stops p) (hpq : p ≤ q) : l.Stops q :=
  ⟨h.1, fun op hop => Nat.lt_of_lt_of_le (h.2 op hop) hpq⟩

theorem closes_parenClose : Closes (.mark .parenClose) :=
  ⟨⟨by simp, by simp [Parser.binaryOp?, Mark.binaryOp?]⟩, rfl⟩

theorem closes_semicolon : Closes (.mark .semicolon) :=
  ⟨⟨by simp, by simp [Parser.binaryOp?, Mark.binaryOp?]⟩, rfl⟩

theorem closes_comma : Closes (.mark .comma) :=
  ⟨⟨by simp, by simp [Parser.binaryOp?, Mark.binaryOp?]⟩, rfl⟩

theorem stops_of_binaryOp? {m : Mark} {op : BinaryOp} {p : Nat} (h : m.binaryOp? = some op)
    (hp : op.precedence < p) : (mark m).Stops p := by
  refine ⟨?_, fun op' hop => ?_⟩
  · rintro ⟨⟩
    cases h
  · rw [Parser.binaryOp?, h] at hop
    cases hop
    exact hp

theorem stops_of_assignOp? {m : Mark} {op : AssignOp} (h : m.assignOp? = some op) :
    (mark m).Stops 1 := by
  refine ⟨?_, fun op' hop => ?_⟩
  · rintro ⟨⟩
    cases h
  · rw [Parser.binaryOp?] at hop
    cases m <;> cases hop <;> cases h

end Lexeme

theorem BinaryOp.precedence_le (op : BinaryOp) : op.precedence ≤ 4 := by
  cases op <;> simp [BinaryOp.precedence]

namespace Grammar.Phrase

/-- What an operand without operators before it starts with, at the levels of one. -/
theorem startsCall_head {l : Level} (e : Phrase l) (hl : l = .primary ∨ l = .call) :
    ∃ t ts, e.tokens = t :: ts ∧ t.lexeme.startsCall := by
  induction e with
  | truth b loc => cases b <;> exact ⟨_, _, rfl, rfl⟩
  | named | integer | group => exact ⟨_, _, rfl, rfl⟩
  | plain inner ih => exact ih (.inl rfl)
  | callEmpty callee opening closing ih =>
    obtain ⟨t, ts, htokens, ht⟩ := ih (.inr rfl)
    exact ⟨t, _, by rw [tokens, htokens, List.cons_append], ht⟩
  | callWith callee opening args closing ih =>
    obtain ⟨t, ts, htokens, ht⟩ := ih (.inr rfl)
    exact ⟨t, _, by rw [tokens, htokens, List.cons_append], ht⟩
  | operand | operator | lone | tighter | chain | simple | assign | argument | another =>
    simp at hl

theorem startsPhrase_head {l : Level} (e : Phrase l) :
    ∃ t ts, e.tokens = t :: ts ∧ t.lexeme.startsPhrase := by
  have hcall : ∀ {l} (e : Phrase l), l = .primary ∨ l = .call →
      ∃ t ts, e.tokens = t :: ts ∧ t.lexeme.startsPhrase := by
    intro l e hl
    obtain ⟨t, ts, htokens, ht⟩ := e.startsCall_head hl
    exact ⟨t, ts, htokens, by rw [Lexeme.startsPhrase, ht, Bool.true_or]⟩
  induction e with
  | named name loc => exact hcall (.named name loc) (.inl rfl)
  | truth b loc => exact hcall (.truth b loc) (.inl rfl)
  | integer digits loc => exact hcall (.integer digits loc) (.inl rfl)
  | group opening inner closing => exact hcall (.group opening inner closing) (.inl rfl)
  | plain inner => exact hcall (.plain inner) (.inr rfl)
  | callEmpty callee opening closing => exact hcall (.callEmpty callee opening closing) (.inr rfl)
  | callWith callee opening args closing =>
    exact hcall (.callWith callee opening args closing) (.inr rfl)
  | operand inner => exact hcall inner (.inr rfl)
  | operator mark op loc inner listed =>
    have hop : Parser.unaryOp? (.mark mark) = some op := mem_signs.1 listed
    exact ⟨_, _, rfl, by simp [Lexeme.startsPhrase, hop]⟩
  | lone inner ih | tighter inner ih | simple inner ih | argument inner ih => exact ih
  | chain left mark op loc right listed ih =>
    obtain ⟨t, ts, htokens, ht⟩ := ih
    exact ⟨t, _, by rw [tokens, htokens, List.cons_append], ht⟩
  | assign target mark op loc value listed ih =>
    obtain ⟨t, ts, htokens, ht⟩ := ih
    exact ⟨t, _, by rw [tokens, htokens, List.cons_append], ht⟩
  | another before comma last ih =>
    obtain ⟨t, ts, htokens, ht⟩ := ih
    exact ⟨t, _, by rw [tokens, htokens, List.cons_append], ht⟩

/-- No operator binds tighter than a product. -/
theorem precedence_le {l : Level} (e : Phrase l) : ∀ p, l = .binary p → p ≤ 5 := by
  induction e with
  | lone => rintro _ ⟨⟩; exact Nat.le_refl _
  | tighter inner ih =>
    rintro _ ⟨⟩
    exact Nat.le_of_succ_le (ih _ rfl)
  | chain left mark op loc right listed ih => rintro _ ⟨⟩; exact ih _ rfl
  | named | truth | integer | group | plain | callEmpty | callWith | operand | operator | simple
  | assign | argument | another => rintro _ ⟨⟩

end Grammar.Phrase

namespace Parser

open Grammar

variable {α β : Type} {E : Code → Prop} {s s' : State}

/-- The run reports a diagnostic that is excused. -/
def Excused (E : Code → Prop) (r : EStateM.Result Diagnostic State α) : Prop :=
  ∃ d ∈ diagnostics r, E d.code

/-- Two runs come to the same, unless the first one is excused. -/
def Agrees (E : Code → Prop) (r r' : EStateM.Result Diagnostic State α) : Prop :=
  r = r' ∨ Excused E r

theorem Excused.bind {p : Parser α} {f : α → Parser β} (hf : ∀ a, Orderly (f a))
    (h : Excused E (p s)) : Excused E ((p >>= f) s) := by
  obtain ⟨d, hd, hcode⟩ := h
  exact ⟨d, mem_diagnostics_bind hf hd, hcode⟩

namespace Agrees

theorem refl (r : EStateM.Result Diagnostic State α) : Agrees E r r := .inl rfl

theorem trans {r r' r'' : EStateM.Result Diagnostic State α} (h : Agrees E r r')
    (h' : Agrees E r' r'') : Agrees E r r'' := by
  rcases h with rfl | h
  · exact h'
  · exact .inr h

theorem bind {p : Parser α} {f : α → Parser β} {a : α} {r : EStateM.Result Diagnostic State β}
    (h : Agrees E (p s) (.ok a s')) (hf : ∀ a, Orderly (f a)) (hr : Agrees E (f a s') r) :
    Agrees E ((p >>= f) s) r := by
  rcases h with h | h
  · rwa [bind_of_ok h]
  · exact .inr (h.bind hf)

theorem pure {a : α} (h : s = s') : Agrees E ((Pure.pure a : Parser α) s) (.ok a s') := by
  rw [h]
  exact .refl _

section Tokens

variable {r : EStateM.Result Diagnostic State β} {loc : Location} {rest : List Token}

theorem advance {f : Unit → Parser β} {t : Token} (hs : s.ahead = t :: rest)
    (h : Agrees E (f () (s.past [t] rest s.table)) r) : Agrees E ((Parser.advance >>= f) s) r := by
  rw [← State.advanced_eq hs] at h
  exact h

theorem current {f : Token → Parser β} {t : Token} (hs : s.ahead = t :: rest)
    (h : Agrees E (f t s) r) : Agrees E ((Parser.current >>= f) s) r := by
  rwa [current_bind, State.current_eq hs]

theorem expect {l : Lexeme} {f : Location → Parser β} (hs : s.ahead = ⟨l, loc⟩ :: rest)
    (h : Agrees E (f loc (s.past [⟨l, loc⟩] rest s.table)) r) :
    Agrees E ((Parser.expect l >>= f) s) r := by
  rwa [bind_of_ok (expect_of_eq (by rw [State.current_eq hs])), State.current_eq hs,
    State.advanced_eq hs]

theorem accept {l : Lexeme} {f : Bool → Parser β} (hs : s.ahead = ⟨l, loc⟩ :: rest)
    (h : Agrees E (f true (s.past [⟨l, loc⟩] rest s.table)) r) :
    Agrees E ((Parser.accept l >>= f) s) r := by
  rwa [bind_of_ok (accept_of_eq (by rw [State.current_eq hs])), State.advanced_eq hs]

theorem accept_ne {l : Lexeme} {f : Bool → Parser β} (hs : s.current.lexeme ≠ l)
    (h : Agrees E (f false s) r) : Agrees E ((Parser.accept l >>= f) s) r := by
  rwa [bind_of_ok (accept_of_ne hs)]

end Tokens

end Agrees

/-- The parser of operations whose operators bind at least as tight as `5 - k`. -/
def climb (operand : Parser Expr) : Nat → Parser Expr
  | 0 => operand
  | k + 1 => leftAssociative (4 - k) (climb operand k)

theorem binary_eq_climb (operand : Parser Expr) : binary operand = climb operand 4 := rfl

theorem Orderly.climb {operand : Parser Expr} (h : Orderly operand) :
    ∀ k, Orderly (climb operand k)
  | 0 => h
  | k + 1 => .leftAssociative (4 - k) (Orderly.climb h k)

/-- A text of the given depth is within the limits, save those of which the breach is
excused. -/
structure Within (E : Code → Prop) (room depth : Nat) (ts : List Token) : Prop where
  depth_le : ¬E .nestingTooDeep → depth ≤ room
  inRange : ¬E .integerOutOfRange → ∀ t ∈ ts, t.InRange

theorem Within.of_le {room room' depth depth' : Nat} {ts ts' : List Token}
    (h : Within E room depth ts) (hdepth : depth ≤ room → depth' ≤ room')
    (htokens : ∀ t ∈ ts', t ∈ ts) : Within E room' depth' ts' :=
  ⟨fun hE => hdepth (h.depth_le hE), fun hE t ht => h.inRange hE t (htokens t ht)⟩

/-- What stands on the two sides of a token is within the limits of the whole. -/
theorem Within.sides {room depth depth' : Nat} {ts ts' : List Token} {t : Token}
    (h : Within E room (max depth depth') (ts ++ t :: ts')) :
    Within E room depth ts ∧ Within E room depth' ts' := by
  constructor
  · exact h.of_le (fun hle => (Nat.max_le.1 hle).1) fun u hu => List.mem_append_left _ hu
  · refine h.of_le (fun hle => (Nat.max_le.1 hle).2) fun u hu => ?_
    exact List.mem_append_right _ (List.mem_cons_of_mem _ hu)

/-- A derivation that is within the limits. -/
abbrev Fits {l : Level} (E : Code → Prop) (room : Nat) (e : Phrase l) : Prop :=
  Within E room e.depth e.tokens

/-- What the parser of each level does with the tokens of a derivation of that level. The
levels that repeat go on with the repetition behind these tokens. -/
def Accepts (E : Code → Prop) (room : Nat) : {l : Level} → Phrase l → Prop
  | .primary, e => ∀ s rest, s.ahead = e.tokens ++ rest →
    Agrees E (primary (expression room) s)
      (.ok (e.build s.table).1 (s.past e.tokens rest (e.build s.table).2))
  | .call, e => ∀ s rest, s.ahead = e.tokens ++ rest →
    Agrees E (call (expression room) s) (iterate (callStep (expression room)) (e.build s.table).1
      (s.past e.tokens rest (e.build s.table).2))
  | .unary, e => ∀ s rest, s.ahead = e.tokens ++ rest → (following rest .endOfFile).Stops 5 →
    Agrees E (unary room s) (.ok (e.build s.table).1 (s.past e.tokens rest (e.build s.table).2))
  | .binary p, e => ∀ s rest, s.ahead = e.tokens ++ rest →
    (following rest .endOfFile).Stops (p + 1) →
    Agrees E (climb (unary room) (5 - p) s) (iterate (chainStep p (climb (unary room) (4 - p)))
      (e.build s.table).1 (s.past e.tokens rest (e.build s.table).2))
  | .expression, e => ∀ s rest, s.ahead = e.tokens ++ rest → (following rest .endOfFile).Closes →
    Agrees E (expression room s)
      (.ok (e.build s.table).1 (s.past e.tokens rest (e.build s.table).2))
  | .arguments, e => ∀ s rest, s.ahead = e.tokens ++ rest → (following rest .endOfFile).Closes →
    Agrees E (commaSeparated (expression room) s) (iterate (commaStep (expression room))
      (e.build s.table).1 (s.past e.tokens rest (e.build s.table).2))

theorem iterate_stop {step : α → Parser (Option α)} (h : Productive step) {a : α}
    (hs : step a s = .ok none s) : iterate step a s = .ok a s := by
  rw [h.iterate_eq, bind_of_ok hs]
  rfl

theorem iterate_go {step : α → Parser (Option α)} (h : Productive step)
    (horder : ∀ a, Orderly (step a)) {a b : α} (hs : Agrees E (step a s) (.ok (some b) s')) :
    Agrees E (iterate step a s) (iterate step b s') := by
  rw [h.iterate_eq]
  exact hs.bind (.iterateAfter horder a) (.refl _)

theorem commaStep_stop {item : Parser α} {items : List α}
    (h : s.current.lexeme ≠ .mark .comma) : commaStep item items s = .ok none s := by
  rw [commaStep, bind_of_ok (accept_of_ne h)]
  rfl

theorem callStep_stop {expr : Parser Expr} {callee : Expr}
    (h : s.current.lexeme ≠ .mark .parenOpen) : callStep expr callee s = .ok none s := by
  rw [callStep, bind_of_ok (accept_of_ne h)]
  rfl

theorem chainStep_stop {operand : Parser Expr} {left : Expr} {p : Nat}
    (h : s.current.lexeme.Stops p) : chainStep p operand left s = .ok none s := by
  rw [chainStep, current_bind]
  cases hop : binaryOp? s.current.lexeme with
  | none => rfl
  | some op =>
    have hlt := h.2 op hop
    dsimp only
    rw [if_neg (by omega)]
    rfl

theorem closedBy_absent {l : Lexeme} {absent : Location → α} {p : Parser α} {loc : Location}
    {rest : List Token} (hs : s.ahead = ⟨l, loc⟩ :: rest) :
    Agrees E (closedBy l absent p s) (.ok (absent loc) (s.past [⟨l, loc⟩] rest s.table)) := by
  refine .current hs ?_
  dsimp only
  rw [if_pos rfl, pure_bind]
  exact .expect hs (.refl _)

theorem closedBy_present {l : Lexeme} (absent : Location → α) {p : Parser α} {a : α}
    {loc : Location} {rest : List Token} (hne : s.current.lexeme ≠ l)
    (hp : Agrees E (p s) (.ok a s')) (hs : s'.ahead = ⟨l, loc⟩ :: rest) :
    Agrees E (closedBy l absent p s) (.ok a (s'.past [⟨l, loc⟩] rest s'.table)) := by
  rw [closedBy, current_bind]
  dsimp only
  rw [if_neg hne]
  exact hp.bind (fun _ => (Orderly.expect l).bind fun _ => .pure _) (.expect hs (.refl _))

theorem accepts_named (name : String) (loc : Location) (room : Nat) :
    Accepts E room (.named name loc) := by
  intro s rest hs
  exact .current hs (.advance hs (.refl _))

theorem accepts_truth (b : Bool) (loc : Location) (room : Nat) :
    Accepts E room (.truth b loc) := by
  intro s rest hs
  refine .current hs ?_
  cases b with
  | true => exact .advance hs (.refl _)
  | false => exact .advance hs (.refl _)

theorem accepts_integer {digits : String} {loc : Location} {room : Nat}
    (hfit : Fits E room (.integer digits loc)) : Accepts E room (.integer digits loc) := by
  intro s rest hs
  refine .current hs ?_
  dsimp only
  rw [integerLiteral?_decimal]
  by_cases hrange : numeral digits < 18446744073709551616
  · rw [if_pos hrange]
    exact .advance hs (.refl _)
  · rw [if_neg hrange]
    refine .inr ⟨⟨.integerOutOfRange, loc, [("value", .text digits)]⟩, ?_, ?_⟩
    · exact List.mem_append_right _ (List.mem_singleton.2 rfl)
    · refine Classical.byContradiction fun hE => hrange ?_
      exact hfit.inRange hE _ (List.mem_singleton.2 rfl) digits rfl

theorem accepts_group {opening closing : Location} {inner : Phrase .expression} {room : Nat}
    (ih : Accepts E room inner) : Accepts E room (.group opening inner closing) := by
  intro s rest hs
  have hexpr : Orderly (expression room) := .expression room
  have hahead : s.ahead = ⟨.mark .parenOpen, opening⟩ ::
      (inner.tokens ++ ⟨.mark .parenClose, closing⟩ :: rest) := by
    rw [hs]
    simp [Phrase.tokens]
  refine .current hahead (.advance hahead ?_)
  refine (ih _ (⟨.mark .parenClose, closing⟩ :: rest) rfl Lexeme.closes_parenClose).bind
    (fun _ => (Orderly.expect _).bind fun _ => .pure _) (.expect rfl (.pure ?_))
  simp [Phrase.tokens, Phrase.build]

theorem accepts_plain {inner : Phrase .primary} {room : Nat} (ih : Accepts E room inner) :
    Accepts E room (.plain inner) := by
  intro s rest hs
  rw [call_eq]
  exact (ih s rest hs).bind (.iterate (Orderly.callStep (.expression room))) (.refl _)

theorem arguments_absent {expr : Parser Expr} {closing : Location} {rest : List Token}
    (hs : s.ahead = ⟨.mark .parenClose, closing⟩ :: rest) :
    Agrees E (arguments expr s) (.ok [] (s.past [⟨.mark .parenClose, closing⟩] rest s.table)) := by
  rw [arguments_eq]
  exact closedBy_absent hs

theorem accepts_callEmpty {callee : Phrase .call} {opening closing : Location} {room : Nat}
    (ih : Accepts E room callee) : Accepts E room (.callEmpty callee opening closing) := by
  intro s rest hs
  have hexpr : Orderly (expression room) := .expression room
  have hahead : s.ahead = callee.tokens ++ ⟨.mark .parenOpen, opening⟩ ::
      ⟨.mark .parenClose, closing⟩ :: rest := by
    rw [hs]
    simp [Phrase.tokens]
  refine (ih s _ hahead).trans (iterate_go (productive_callStep hexpr) (.callStep hexpr) ?_)
  refine .accept rfl (Agrees.bind (arguments_absent rfl) (fun _ => .pure _) (.pure ?_))
  simp [Phrase.tokens, Phrase.build]

/-- The first lexeme of an expression closes nothing. -/
theorem current_ne_of_startsPhrase {l : Level} (e : Phrase l) {rest : List Token} {l' : Lexeme}
    (hs : s.ahead = e.tokens ++ rest) (hl : l'.startsPhrase = false) : s.current.lexeme ≠ l' := by
  obtain ⟨t, ts, htokens, ht⟩ := e.startsPhrase_head
  rw [htokens] at hs
  rw [State.current_eq hs]
  rintro rfl
  rw [ht] at hl
  cases hl

theorem accepts_callWith {callee : Phrase .call} {opening closing : Location}
    {args : Phrase .arguments} {room : Nat} (ih : Accepts E room callee)
    (ihArgs : Accepts E room args) : Accepts E room (.callWith callee opening args closing) := by
  intro s rest hs
  have hexpr : Orderly (expression room) := .expression room
  have hahead : s.ahead = callee.tokens ++ ⟨.mark .parenOpen, opening⟩ ::
      (args.tokens ++ ⟨.mark .parenClose, closing⟩ :: rest) := by
    rw [hs]
    simp [Phrase.tokens]
  refine (ih s _ hahead).trans (iterate_go (productive_callStep hexpr) (.callStep hexpr) ?_)
  refine .accept rfl ?_
  have hlist := ihArgs (s.past (callee.tokens ++ [⟨.mark .parenOpen, opening⟩])
    (args.tokens ++ ⟨.mark .parenClose, closing⟩ :: rest) (callee.build s.table).2)
    (⟨.mark .parenClose, closing⟩ :: rest) rfl Lexeme.closes_parenClose
  rw [iterate_stop (productive_commaStep hexpr) (commaStep_stop (by simp [State.current]))] at hlist
  have hargs := closedBy_present (fun _ => [])
    (current_ne_of_startsPhrase args rfl rfl) hlist rfl
  rw [← arguments_eq] at hargs
  refine Agrees.bind (by simpa using hargs) (fun _ => .pure _) (.pure ?_)
  simp [Phrase.tokens, Phrase.build]

/-- Without a level that is left nothing is read. -/
theorem agrees_zero {depth : Nat} {ts : List Token} (hfit : Within E 0 (depth + 1) ts)
    {r : EStateM.Result Diagnostic State α} :
    Agrees E ((Parser.current >>= fun t => fail .nestingTooDeep t.loc []) s) r := by
  refine .inr ⟨⟨.nestingTooDeep, s.current.loc, []⟩,
    List.mem_append_right _ (List.mem_singleton.2 rfl), Classical.byContradiction fun hE => ?_⟩
  exact absurd (hfit.depth_le hE) (by omega)

theorem accepts_operand {inner : Phrase .call} {room : Nat} (hfit : Fits E room (.operand inner))
    (ih : ∀ room, Fits E room inner → Accepts E room inner) :
    Accepts E room (.operand inner) := by
  intro s rest hs hstop
  cases room with
  | zero => exact agrees_zero hfit
  | succ room =>
    obtain ⟨t, ts, htokens, ht⟩ := inner.startsCall_head (.inr rfl)
    have hahead : s.ahead = t :: (ts ++ rest) := by
      rw [hs, Phrase.tokens, htokens]
      rfl
    have hnone : unaryOp? t.lexeme = none := by
      cases hl : t.lexeme with
      | mark m =>
        rw [hl] at ht
        cases m <;> first | rfl | cases ht
      | endOfFile | identifier | integer | keyword => rfl
    refine .current hahead ?_
    rw [hnone]
    have hexpr : Orderly (expression room) := .expression room
    have hcall := ih room (hfit.of_le (by simp [Phrase.depth]) fun t ht => ht) s rest hs
    rwa [iterate_stop (productive_callStep hexpr) (callStep_stop (by
      rw [current_lexeme]; exact hstop.1))] at hcall

theorem accepts_operator {mark : Mark} {op : UnaryOp} {loc : Location} {inner : Phrase .unary}
    {listed : (mark, op) ∈ signs} {room : Nat}
    (hfit : Fits E room (.operator mark op loc inner listed))
    (ih : ∀ room, Fits E room inner → Accepts E room inner) :
    Accepts E room (.operator mark op loc inner listed) := by
  intro s rest hs hstop
  cases room with
  | zero => exact agrees_zero hfit
  | succ room =>
    have hop : unaryOp? (.mark mark) = some op := mem_signs.1 listed
    refine .current hs ?_
    dsimp only
    rw [hop]
    refine .advance hs ?_
    refine (ih room (hfit.of_le (by simp [Phrase.depth]) fun t ht => List.mem_cons_of_mem _ ht)
      _ rest rfl hstop).bind (fun _ => .pure _) (.pure ?_)
    simp [Phrase.tokens, Phrase.build]

theorem climb_eq (operand : Parser Expr) {p : Nat} (hp : p ≤ 4) :
    climb operand (5 - p) =
      climb operand (4 - p) >>= iterate (chainStep p (climb operand (4 - p))) := by
  have hsucc : 5 - p = (4 - p) + 1 := by omega
  have hself : 4 - (4 - p) = p := by omega
  rw [hsucc, climb, hself, leftAssociative_eq]

/-- Before a lexeme that stops its level, an operation is read to its end. -/
theorem Accepts.of_stops {room p : Nat} {e : Phrase (.binary p)} (h : Accepts E room e)
    {rest : List Token} (hs : s.ahead = e.tokens ++ rest)
    (hstop : (following rest .endOfFile).Stops p) :
    Agrees E (climb (unary room) (5 - p) s)
      (.ok (e.build s.table).1 (s.past e.tokens rest (e.build s.table).2)) := by
  have hrun := h s rest hs (hstop.mono (Nat.le_succ p))
  rwa [iterate_stop (productive_chainStep p ((Orderly.unary room).climb _))
    (chainStep_stop (by rw [current_lexeme]; exact hstop))] at hrun

theorem accepts_lone {inner : Phrase .unary} {room : Nat} (ih : Accepts E room inner) :
    Accepts E room (.lone inner) := by
  intro s rest hs hstop
  have hfive : (following rest .endOfFile).Stops 5 :=
    ⟨hstop.1, fun op _ => Nat.lt_succ_of_le op.precedence_le⟩
  rw [iterate_stop (productive_chainStep 5 ((Orderly.unary room).climb _))
    (chainStep_stop (by rw [current_lexeme]; exact hfive))]
  exact ih s rest hs hfive

theorem accepts_tighter {p room : Nat} {inner : Phrase (.binary (p + 1))}
    (ih : Accepts E room inner) : Accepts E room (.tighter inner) := by
  intro s rest hs hstop
  have hp := inner.precedence_le _ rfl
  have hsub : 5 - (p + 1) = 4 - p := by omega
  have hoperand := ih.of_stops hs hstop
  rw [hsub] at hoperand
  rw [climb_eq _ (by omega)]
  exact hoperand.bind (.iterate (Orderly.chainStep p ((Orderly.unary room).climb _))) (.refl _)

theorem accepts_chain {p room : Nat} {left : Phrase (.binary p)} {mark : Mark} {op : BinaryOp}
    {loc : Location} {right : Phrase (.binary (p + 1))} {listed : (mark, op) ∈ operators p}
    (ihLeft : Accepts E room left) (ihRight : Accepts E room right) :
    Accepts E room (.chain left mark op loc right listed) := by
  intro s rest hs hstop
  obtain ⟨hspelled, hbinds⟩ := mem_operators.1 listed
  have hoperand : Orderly (climb (unary room) (4 - p)) := (Orderly.unary room).climb _
  have hsub : 5 - (p + 1) = 4 - p := by omega
  have hahead : s.ahead = left.tokens ++ ⟨.mark mark, loc⟩ :: (right.tokens ++ rest) := by
    rw [hs]
    simp [Phrase.tokens]
  refine (ihLeft s _ hahead (Lexeme.stops_of_binaryOp? hspelled (by omega))).trans ?_
  refine iterate_go (productive_chainStep p hoperand) (.chainStep p hoperand) ?_
  have hop : binaryOp? (.mark mark) = some op := hspelled
  refine .current rfl ?_
  dsimp only
  rw [hop]
  dsimp only
  rw [if_pos hbinds]
  refine .advance rfl ?_
  have hright := ihRight.of_stops (s := (s.past left.tokens
    (⟨.mark mark, loc⟩ :: (right.tokens ++ rest)) (left.build s.table).2).past [⟨.mark mark, loc⟩]
    (right.tokens ++ rest) (left.build s.table).2) rfl hstop
  rw [hsub] at hright
  refine hright.bind (fun _ => .pure _) (.pure ?_)
  simp [Phrase.tokens, Phrase.build]

theorem expression_eq (room : Nat) :
    expression room = binary (unary room) >>= assignmentTail (expression room) :=
  expressionOver_eq (.unary room) (.unary room)

theorem accepts_simple {inner : Phrase (.binary 1)} {room : Nat} (ih : Accepts E room inner) :
    Accepts E room (.simple inner) := by
  intro s rest hs hclose
  rw [expression_eq, binary_eq_climb]
  refine (ih.of_stops hs hclose.1).bind (Orderly.expression room).assignmentTail ?_
  rw [assignmentTail, current_bind, current_lexeme, State.ahead_past, hclose.2]
  exact .refl _

theorem accepts_assign {target : Phrase (.binary 1)} {mark : Mark} {op : AssignOp}
    {loc : Location} {value : Phrase .expression} {listed : (mark, op) ∈ assignments} {room : Nat}
    (ih : Accepts E room target) (ihValue : Accepts E room value) :
    Accepts E room (.assign target mark op loc value listed) := by
  intro s rest hs hclose
  have hahead : s.ahead = target.tokens ++ ⟨.mark mark, loc⟩ :: (value.tokens ++ rest) := by
    rw [hs]
    simp [Phrase.tokens]
  have hop : assignOp? (.mark mark) = some op := mem_assignments.1 listed
  rw [expression_eq, binary_eq_climb]
  refine (ih.of_stops hahead (Lexeme.stops_of_assignOp? (mem_assignments.1 listed))).bind
    (Orderly.expression room).assignmentTail (.current rfl ?_)
  dsimp only
  rw [hop]
  refine .advance rfl ?_
  refine (ihValue _ rest rfl hclose).bind (fun _ => .pure _) (.pure ?_)
  simp [Phrase.tokens, Phrase.build]

theorem accepts_argument {inner : Phrase .expression} {room : Nat} (ih : Accepts E room inner) :
    Accepts E room (.argument inner) := by
  intro s rest hs hclose
  rw [commaSeparated_eq]
  exact (ih s rest hs hclose).bind
    (fun _ => .iterate (Orderly.commaStep (Orderly.expression room)) _) (.refl _)

theorem accepts_another {before : Phrase .arguments} {comma : Location} {last : Phrase .expression}
    {room : Nat} (ih : Accepts E room before) (ihLast : Accepts E room last) :
    Accepts E room (.another before comma last) := by
  intro s rest hs hclose
  have hexpr : Orderly (expression room) := .expression room
  have hahead : s.ahead = before.tokens ++ ⟨.mark .comma, comma⟩ :: (last.tokens ++ rest) := by
    rw [hs]
    simp [Phrase.tokens]
  refine (ih s _ hahead Lexeme.closes_comma).trans
    (iterate_go (productive_commaStep hexpr) (.commaStep hexpr) (.accept rfl ?_))
  refine (ihLast _ rest rfl hclose).bind (fun _ => .pure _) (.pure ?_)
  simp [Phrase.tokens, Phrase.build]

/-- Every derivation within the limits is what its tokens are read as. -/
theorem accepts {l : Level} (e : Phrase l) : ∀ room, Fits E room e → Accepts E room e := by
  induction e with
  | named name loc => exact fun room _ => accepts_named name loc room
  | truth b loc => exact fun room _ => accepts_truth b loc room
  | integer digits loc => exact fun room hfit => accepts_integer hfit
  | group opening inner closing ih =>
    intro room hfit
    exact accepts_group (ih room (hfit.of_le id fun t ht => by simp [Phrase.tokens, ht]))
  | plain inner ih => exact fun room hfit => accepts_plain (ih room hfit)
  | callEmpty callee opening closing ih =>
    intro room hfit
    exact accepts_callEmpty (ih room (hfit.of_le id fun t ht => by simp [Phrase.tokens, ht]))
  | callWith callee opening args closing ih ihArgs =>
    intro room hfit
    obtain ⟨hfit, hclosed⟩ := Within.sides hfit
    have hargs : Fits E room args := hclosed.of_le id fun t ht => List.mem_append_left _ ht
    exact accepts_callWith (ih room hfit) (ihArgs room hargs)
  | operand inner ih => exact fun room hfit => accepts_operand hfit ih
  | operator mark op loc inner listed ih => exact fun room hfit => accepts_operator hfit ih
  | lone inner ih => exact fun room hfit => accepts_lone (ih room hfit)
  | tighter inner ih => exact fun room hfit => accepts_tighter (ih room hfit)
  | chain left mark op loc right listed ih ihRight =>
    intro room hfit
    obtain ⟨hfit, hfit'⟩ := Within.sides hfit
    exact accepts_chain (ih room hfit) (ihRight room hfit')
  | simple inner ih => exact fun room hfit => accepts_simple (ih room hfit)
  | assign target mark op loc value listed ih ihValue =>
    intro room hfit
    obtain ⟨hfit, hfit'⟩ := Within.sides hfit
    exact accepts_assign (ih room hfit) (ihValue room hfit')
  | argument inner ih => exact fun room hfit => accepts_argument (ih room hfit)
  | another before comma last ih ihLast =>
    intro room hfit
    obtain ⟨hfit, hfit'⟩ := Within.sides hfit
    exact accepts_another (ih room hfit) (ihLast room hfit')

end Parser

end Ember
