import Ember.Proofs.Parser.Rules

namespace Ember.Parser

open Grammar

theorem exists_mark_of_binaryOp? {l : Lexeme} {op : BinaryOp} (h : binaryOp? l = some op) :
    ∃ mark, l = .mark mark ∧ mark.binaryOp? = some op := by
  cases l with
  | mark m => exact ⟨m, rfl, h⟩
  | endOfFile | identifier | integer | keyword => cases h

theorem exists_mark_of_assignOp? {l : Lexeme} {op : AssignOp} (h : assignOp? l = some op) :
    ∃ mark, l = .mark mark ∧ mark.assignOp? = some op := by
  cases l with
  | mark m => exact ⟨m, rfl, h⟩
  | endOfFile | identifier | integer | keyword => cases h

theorem exists_mark_of_unaryOp? {l : Lexeme} {op : UnaryOp} (h : unaryOp? l = some op) :
    ∃ mark, l = .mark mark ∧ mark.unaryOp? = some op := by
  cases l with
  | mark m => exact ⟨m, rfl, h⟩
  | endOfFile | identifier | integer | keyword => cases h

namespace Language

/-- The texts of a nonterminal, with their trees. -/
def phrase (l : Level) : Language l.Tree :=
  fun room t ts _ a t' => ∃ e : Phrase l, e.tokens = ts ∧ e.build t = (a, t') ∧ e.depth ≤ room

theorem widens_phrase (l : Level) : (phrase l).Widens := by
  rintro room t ts next next' a t' _ ⟨e, rfl, hbuild, hdepth⟩
  exact ⟨e, rfl, hbuild, by omega⟩

theorem completedBy_primary (room : Nat) :
    (phrase .primary).CompletedBy room [.identifier "x"] := by
  refine ⟨by simp [Lexeme.isFiller], by simp, fun us t next hus _ => ?_⟩
  obtain ⟨u, rfl, hu⟩ := List.map_eq_singleton_iff.1 hus
  exact ⟨_, _, .named "x" u.loc, by rw [Phrase.tokens, ← hu], rfl, Nat.zero_le _⟩

end Language

section Expressions

variable {room : Nat} {expr operand : Parser Expr}

/-- The expressions of a level are read, and a name is one. -/
abbrev ReadsPhrase (l : Level) (room : Nat) (p : Parser l.Tree) : Prop :=
  Recognizes (.phrase l) room [.identifier "x"] p

theorem ReadsPhrase.primary (h : ReadsPhrase .expression room expr) :
    ReadsPhrase .primary room (primary expr) where
  orderly := h.orderly.primary
  widens := Language.widens_phrase _
  completed := Language.completedBy_primary room
  outcome s hreal := by
    refine .current_bind ?_
    split
    case h_1 name hname =>
      refine .advance_bind hreal (by simp [hname]) (inRange_of_ne (by simp [hname]))
        ((Recognizes.enter name .empty).bind fun id => .nothing _) ?_
      rintro room t ts next a t' ⟨_, _, _, t₂, rfl, ⟨rfl, hid⟩, rfl, rfl, rfl⟩
      cases hid
      exact ⟨.named name s.current.loc, by simp [Phrase.tokens, ← hname], rfl, Nat.zero_le _⟩
    case h_2 htrue =>
      refine .advance_bind hreal (by simp [htrue]) (inRange_of_ne (by simp [htrue]))
        (.nothing _) ?_
      rintro room t ts next a t' ⟨rfl, rfl, rfl⟩
      exact ⟨.truth true s.current.loc, by simp [Phrase.tokens, ← htrue], rfl, Nat.zero_le _⟩
    case h_3 hfalse =>
      refine .advance_bind hreal (by simp [hfalse]) (inRange_of_ne (by simp [hfalse]))
        (.nothing _) ?_
      rintro room t ts next a t' ⟨rfl, rfl, rfl⟩
      exact ⟨.truth false s.current.loc, by simp [Phrase.tokens, ← hfalse], rfl, Nat.zero_le _⟩
    case h_4 digits hdigits =>
      have hne : s.current.lexeme ≠ .endOfFile := by simp [hdigits]
      rw [integerLiteral?_decimal]
      by_cases hrange : numeral digits < 18446744073709551616
      · rw [if_pos hrange]
        refine .advance_bind hreal hne (fun digits' h => ?_) (.nothing _) ?_
        · rw [hdigits] at h
          cases h
          exact hrange
        · rintro room t ts next a t' ⟨rfl, rfl, rfl⟩
          exact ⟨.integer digits s.current.loc, by simp [Phrase.tokens, ← hdigits], rfl,
            Nat.zero_le _⟩
      · rw [if_neg hrange]
        exact .ofBroken hne rfl
    case h_5 hparen =>
      refine .advance_bind hreal (by simp [hparen]) (inRange_of_ne (by simp [hparen]))
        (h.bind fun inner => (Recognizes.mark _).bind fun _ => .nothing _) ?_
      rintro room t ts next a t' ⟨_, _, _, t₁, rfl, ⟨e, rfl, hbuild, hdepth⟩,
        _, _, closing, t₂, rfl, ⟨rfl, rfl⟩, rfl, rfl, rfl⟩
      refine ⟨.group s.current.loc e closing, by simp [Phrase.tokens, ← hparen], ?_, hdepth⟩
      rw [Phrase.build, hbuild]
    case h_6 hend => exact .ofStuck hreal hend rfl (Language.completedBy_primary room)
    case h_7 hend => exact .ofBroken hend rfl

theorem ReadsPhrase.commaSeparated (h : ReadsPhrase .expression room expr) :
    ReadsPhrase .arguments room (commaSeparated expr) := by
  refine Recognizes.commaSeparated h (Language.widens_phrase _) ?_ ?_
  · rintro room t ts next a t' ⟨e, rfl, hbuild, hdepth⟩
    exact ⟨.argument e, rfl, by rw [Phrase.build, hbuild], hdepth⟩
  · rintro room t ts t' ts' as a next t'' comma ⟨es, rfl, hes, hdepth⟩ ⟨e, rfl, he, hdepth'⟩
    refine ⟨.another es comma e, rfl, ?_, Nat.max_le.2 ⟨hdepth, hdepth'⟩⟩
    simp only [Phrase.build, hes, he]

theorem ReadsPhrase.call (h : ReadsPhrase .expression room expr) :
    ReadsPhrase .call room (call expr) := by
  rw [call_eq]
  have hplain : Recognizes (.phrase .call) room [.identifier "x"] (Parser.primary expr) := by
    refine Recognizes.mono (ReadsPhrase.primary h) (Language.widens_phrase _) ?_
    rintro room t ts next a t' ⟨e, rfl, hbuild, hdepth⟩
    exact ⟨.plain e, rfl, hbuild, hdepth⟩
  have hargs := h.commaSeparated.closedBy (l := .mark .parenClose) rfl (by simp) fun _ => []
  have hstep : ∀ callee, Recognizes _ room [] (callStep expr callee) := fun callee =>
    .accept_bind rfl (hargs.bind fun args => .nothing _) (.nothing none)
  refine hplain.iterate (productive_callStep h.orderly) ⟨?_, ?_⟩ hstep
  · rintro room t₀ ts ts' next callee t a t' ⟨e, rfl, hbuild, hdepth⟩
      (⟨_, _, opening, t₁, rfl, ⟨rfl, rfl⟩, us, _, args, t₂, rfl, hargs, rfl, h, rfl⟩ | ⟨_, h, _⟩)
    · cases h
      rcases hargs with ⟨closing, rfl, rfl, rfl⟩ | ⟨us', closing, rfl, es, rfl, hes, hdepth'⟩
      · exact ⟨.callEmpty e opening closing, rfl, by simp only [Phrase.build, hbuild], hdepth⟩
      · refine ⟨.callWith e opening es closing, by simp [Phrase.tokens], ?_,
          Nat.max_le.2 ⟨hdepth, hdepth'⟩⟩
        simp only [Phrase.build, hbuild, hes]
    · cases h
  · rintro room callee t ts next t'
      (⟨_, _, opening, t₁, rfl, ⟨rfl, rfl⟩, us, _, args, t₂, rfl, hargs, rfl, h, rfl⟩ |
        ⟨rfl, _, rfl⟩)
    · cases h
    · exact ⟨rfl, rfl⟩

/-- One more operand of a chain, or nothing. -/
def Language.chainStep (p : Nat) (left : Expr) : Language (Option Expr) :=
  fun room t ts _ a t' => (ts = [] ∧ a = none ∧ t' = t) ∨
    ∃ mark op loc right e, Mark.binaryOp? mark = some op ∧ op.precedence = p ∧
      ts = ⟨.mark mark, loc⟩ :: (Phrase.tokens (l := .binary (p + 1)) right) ∧
      right.build t = (e, t') ∧ right.depth ≤ room ∧ a = some (.binary op left e loc)

theorem Recognizes.chainStep {p : Nat} (h : ReadsPhrase (.binary (p + 1)) room operand)
    (left : Expr) : Recognizes (.chainStep p left) room [] (chainStep p operand left) where
  orderly := .chainStep p h.orderly left
  widens := by
    rintro room t ts next next' a t' _
      (hnone | ⟨mark, op, loc, right, e, hmark, hop, hts, he, hd, ha⟩)
    · exact .inl hnone
    · exact .inr ⟨mark, op, loc, right, e, hmark, hop, hts, he, by omega, ha⟩
  completed := ⟨by simp, by simp, fun us t next hus _ =>
    ⟨none, t, .inl ⟨by simpa using hus, rfl, rfl⟩⟩⟩
  outcome s hreal := by
    have hnone : Outcome (.chainStep p left) room (pure none) s :=
      ((Recognizes.nothing none).outcome s hreal).mono .inl
    refine .current_bind ?_
    cases hop : binaryOp? s.current.lexeme with
    | none => exact hnone
    | some op =>
      dsimp only
      split
      · rename_i hprec
        obtain ⟨mark, hlexeme, hmark⟩ := exists_mark_of_binaryOp? hop
        refine .advance_bind hreal (by simp [hlexeme]) (inRange_of_ne (by simp [hlexeme]))
          (h.bind fun right => .nothing _) ?_
        rintro room t ts next a t' ⟨_, _, e, t₁, rfl, ⟨right, rfl, he, hd⟩, rfl, rfl, rfl⟩
        exact .inr ⟨mark, op, s.current.loc, right, e, hmark, hprec, by simp [← hlexeme], he, hd,
          rfl⟩
      · exact hnone

theorem ReadsPhrase.leftAssociative {p : Nat} (h : ReadsPhrase (.binary (p + 1)) room operand) :
    ReadsPhrase (.binary p) room (leftAssociative p operand) := by
  rw [leftAssociative_eq]
  have hfirst : Recognizes (.phrase (.binary p)) room [.identifier "x"] operand := by
    refine Recognizes.mono h (Language.widens_phrase _) ?_
    rintro room t ts next a t' ⟨e, rfl, hbuild, hdepth⟩
    exact ⟨.tighter e, rfl, hbuild, hdepth⟩
  refine hfirst.iterate (productive_chainStep p h.orderly) ⟨?_, ?_⟩ (Recognizes.chainStep h)
  · rintro room t₀ ts ts' next left t a t' ⟨e, rfl, hbuild, hdepth⟩
      (⟨_, h, _⟩ | ⟨mark, op, loc, right, e', hmark, hop, rfl, he, hd, h⟩)
    · cases h
    · cases h
      refine ⟨.chain e mark op loc right (mem_operators.2 ⟨hmark, hop⟩), rfl, ?_, Nat.max_le.2 ⟨hdepth, hd⟩⟩
      simp only [Phrase.build, hbuild, he]
  · rintro room left t ts next t' (⟨rfl, _, rfl⟩ | ⟨mark, op, loc, right, e', _, _, _, _, _, h⟩)
    · exact ⟨rfl, rfl⟩
    · cases h

theorem ReadsPhrase.binary (h : ReadsPhrase .unary room operand) :
    ReadsPhrase (.binary 1) room (binary operand) := by
  have hlone : ReadsPhrase (.binary 5) room operand := by
    refine Recognizes.mono h (Language.widens_phrase _) ?_
    rintro room t ts next a t' ⟨e, rfl, hbuild, hdepth⟩
    exact ⟨.lone e, rfl, hbuild, hdepth⟩
  exact hlone.leftAssociative.leftAssociative.leftAssociative.leftAssociative

theorem Language.completedBy_unary (room : Nat) :
    (phrase .unary).CompletedBy room [.identifier "x"] := by
  refine ⟨by simp [Lexeme.isFiller], by simp, fun us t next hus _ => ?_⟩
  obtain ⟨u, rfl, hu⟩ := List.map_eq_singleton_iff.1 hus
  refine ⟨_, _, .operand (.plain (.named "x" u.loc)), ?_, rfl, Nat.le_add_left ..⟩
  simp [Phrase.tokens, ← hu]

/-- What may follow the first operand of an expression: an assignment, or nothing. -/
def Language.assignment (target : Expr) : Language Expr :=
  fun room t ts _ a t' => (ts = [] ∧ a = target ∧ t' = t) ∨
    ∃ mark op loc value e, Mark.assignOp? mark = some op ∧
      ts = ⟨.mark mark, loc⟩ :: (Phrase.tokens (l := .expression) value) ∧
      value.build t = (e, t') ∧ value.depth ≤ room ∧
      a = .assign target (assigned op target e loc) target.loc

/-- What an assignment reads behind its target. Its value is read from fewer tokens. -/
theorem Outcome.assignmentTail {value : Parser Expr} {s : State} (target : Expr) (hreal : s.Real)
    (horder : Orderly value) (hcompleted : (Language.phrase .expression).CompletedBy room ls)
    (hvalue : ∀ s' : State, s'.ahead.length ≤ s.ahead.length → s'.Real →
      Outcome (.phrase .expression) room value s') :
    Outcome (.assignment target) room (assignmentTail value target) s := by
  refine .current_bind ?_
  cases hop : assignOp? s.current.lexeme with
  | none => exact ((Recognizes.nothing target).outcome _ hreal).mono .inl
  | some op =>
    obtain ⟨mark, hlexeme, hmark⟩ := exists_mark_of_assignOp? hop
    obtain ⟨rest, hrest⟩ := State.exists_ahead (s := s) (by simp [hlexeme])
    have hadvance : Outcome (.given _) room Parser.advance s :=
      .advance hrest (inRange_of_ne (by simp [hlexeme]))
    refine Outcome.mono (hadvance.bind (Language.widens_given _)
      (fun _ => horder.bind fun _ => .pure _)
      (fun _ => hcompleted.bind fun e => (Recognizes.nothing (Expr.assign target
        (assigned op target e s.current.loc) target.loc)).completed) ?_) ?_
    · intro ts' rest' _ table' hahead _
      have hreal' := hreal.past hahead table'
      refine (hvalue _ ?_ hreal').andThen (Language.widens_phrase _) hreal' fun e => .nothing _
      rw [State.ahead_past, hahead, List.length_append]
      exact Nat.le_add_left _ _
    · rintro room t ts next a t' ⟨_, _, _, _, rfl, ⟨rfl, rfl⟩, _, _, e, _, rfl,
        ⟨value, rfl, hbuild, hdepth⟩, rfl, rfl, rfl⟩
      exact .inr ⟨mark, op, _, value, e, hmark, by simp [← hlexeme], hbuild, hdepth, rfl⟩

theorem ReadsPhrase.expressionOver (h : ReadsPhrase .unary room operand) (hungry : Hungry operand) :
    ReadsPhrase .expression room (expressionOver operand) := by
  have hcompleted : (Language.phrase .expression).CompletedBy room [.identifier "x"] := by
    refine h.binary.completed.mono ?_
    rintro room t ts next a t' ⟨e, rfl, hbuild, hdepth⟩
    exact ⟨.simple e, rfl, hbuild, hdepth⟩
  have horder := h.orderly.expressionOver
  refine ⟨horder, Language.widens_phrase _, hcompleted, fun s hreal => ?_⟩
  -- The value of an assignment is an expression again, from fewer tokens.
  suffices hn : ∀ (n : Nat) (s : State), s.ahead.length < n → s.Real →
      Outcome (.phrase .expression) room (Parser.expressionOver operand) s from
    hn _ s (Nat.lt_succ_self _) hreal
  intro n
  induction n with
  | zero => intro s hs; omega
  | succ n ih =>
    intro s hs hreal
    have hnothing : ∀ target, (Language.assignment target).CompletedBy room [] := fun target =>
      (Recognizes.nothing target).completed.mono .inl
    rw [expressionOver_eq h.orderly hungry]
    refine ((h.binary.outcome s hreal).bind (Language.widens_phrase _) horder.assignmentTail
      hnothing ?_).mono ?_
    · intro ts rest target table hahead hrun
      have hlt := Hungry.binary h.orderly hungry s target _ hrun
      exact .assignmentTail target (hreal.past hahead table) horder hcompleted
        fun s' hs' hreal' => ih s' (by omega) hreal'
    · rintro room t ts next a t' ⟨_, _, target, t₁, rfl, ⟨e, rfl, hbuild, hdepth⟩,
        (⟨rfl, rfl, rfl⟩ | ⟨mark, op, loc, value, e', hmark, rfl, hbuild', hdepth', rfl⟩)⟩
      · exact ⟨.simple e, by simp [Phrase.tokens], hbuild, hdepth⟩
      · refine ⟨.assign e mark op loc value (mem_assignments.2 hmark), rfl, ?_,
          Nat.max_le.2 ⟨hdepth, hdepth'⟩⟩
        simp only [Phrase.build, stored_eq, hbuild, hbuild']

/-- Operands are read as deep as they may nest. The induction is on the levels that are left. -/
theorem ReadsPhrase.unary : ∀ room : Nat, ReadsPhrase .unary room (unary room)
  | 0 => by
    refine ⟨.unary 0, Language.widens_phrase _, Language.completedBy_unary 0, fun s _ => ?_⟩
    exact .ofDeep
  | room + 1 => by
    refine ⟨.unary _, Language.widens_phrase _, Language.completedBy_unary _, fun s hreal => ?_⟩
    have ih := ReadsPhrase.unary room
    refine .deepen (.current_bind ?_)
    cases hop : unaryOp? s.current.lexeme with
    | some op =>
      obtain ⟨mark, hlexeme, hmark⟩ := exists_mark_of_unaryOp? hop
      refine .advance_bind hreal (by simp [hlexeme]) (inRange_of_ne (by simp [hlexeme]))
        (ih.bind fun e => .nothing _) ?_
      rintro room t ts next a t' ⟨_, _, e, _, rfl, ⟨operand, rfl, hbuild, hdepth⟩, rfl, rfl, rfl⟩
      exact ⟨.operator mark op s.current.loc operand (mem_signs.2 hmark),
        by simp [Phrase.tokens, ← hlexeme], by simp only [Phrase.build, hbuild],
        Nat.succ_le_succ hdepth⟩
    | none =>
      have hcall := (ih.expressionOver (Hungry.unary room)).call
      refine (hcall.outcome s hreal).mono ?_
      rintro room t ts next a t' ⟨e, rfl, hbuild, hdepth⟩
      exact ⟨.operand e, rfl, hbuild, Nat.succ_le_succ hdepth⟩

theorem ReadsPhrase.expression (room : Nat) : ReadsPhrase .expression room (expression room) :=
  (ReadsPhrase.unary room).expressionOver (Hungry.unary room)

end Expressions

end Ember.Parser
