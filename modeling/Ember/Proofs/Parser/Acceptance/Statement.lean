import Ember.Proofs.Parser.Acceptance.Expression

namespace Ember

/-- The lexemes that a statement starts with. -/
def Lexeme.startsStatement (l : Lexeme) : Bool :=
  match l with
  | .mark .braceOpen | .keyword .ifKw | .keyword .doKw | .keyword .forKw | .keyword .whileKw
  | .keyword .returnKw => true
  | l => l.startsPhrase

theorem Lexeme.startsStatement_of_startsPhrase {l : Lexeme} (h : l.startsPhrase) :
    l.startsStatement := by
  unfold startsStatement
  split
  all_goals first | rfl | exact h

theorem Grammar.Clause.startsStatement_head (c : Clause .statement) :
    ∃ t ts, c.tokens = t :: ts ∧ t.lexeme.startsStatement := by
  cases c with
  | block | ifThen | ifElse | doWhile | forLoop | whileLoop | returning => exact ⟨_, _, rfl, rfl⟩
  | expr e semicolon =>
    obtain ⟨t, ts, htokens, ht⟩ := e.startsPhrase_head
    exact ⟨t, _, by rw [tokens, htokens, List.cons_append],
      Lexeme.startsStatement_of_startsPhrase ht⟩

/-- An entry of a block starts with the name of a type or as a statement does. -/
theorem Grammar.Clause.entry_head (c : Clause .entry) :
    ∃ t ts, c.tokens = t :: ts ∧ (t.lexeme.isType ∨ t.lexeme.startsStatement) := by
  cases c with
  | vars v semicolon =>
    refine ⟨v.typeName.token, _, rfl, .inl ?_⟩
    rw [Lexeme.isType, TypeName.token, Lexeme.datatype?, v.typeName.datatype?_keyword]
    rfl
  | single s =>
    obtain ⟨t, ts, htokens, ht⟩ := s.startsStatement_head
    exact ⟨t, ts, htokens, .inr ht⟩

namespace Parser

open Grammar

variable {α : Type} {E : Code → Prop} {s s' : State} {room : Nat}

theorem Agrees.identifier {β : Type} {r : EStateM.Result Diagnostic State β} {name : String}
    {loc : Location} {rest : List Token} {f : String × Location → Parser β}
    (hs : s.ahead = ⟨.identifier name, loc⟩ :: rest)
    (h : Agrees E (f (name, loc) (s.past [⟨.identifier name, loc⟩] rest s.table)) r) :
    Agrees E ((Parser.identifier >>= f) s) r := by
  have hname : s.current.lexeme = .identifier name := by rw [State.current_eq hs]
  rwa [bind_of_ok (identifier_of_eq hname), State.current_eq hs, State.advanced_eq hs]

theorem Agrees.datatype {β : Type} {r : EStateM.Result Diagnostic State β} {n : TypeName}
    {rest : List Token} {f : Datatype → Parser β} (hs : s.ahead = n.token :: rest)
    (h : Agrees E (f n.type (s.past [n.token] rest s.table)) r) :
    Agrees E ((Parser.datatype >>= f) s) r := by
  have htype : s.current.lexeme.datatype? = some n.type := by
    rw [State.current_eq hs]
    exact n.datatype?_keyword
  rwa [bind_of_ok (datatype_of_eq htype), State.advanced_eq hs]

theorem Agrees.enter {β : Type} {r : EStateM.Result Diagnostic State β} {name : String}
    {type : Datatype} {f : Int → Parser β}
    (h : Agrees E (f (s.table.add name type).1 (s.past [] s.ahead (s.table.add name type).2)) r) :
    Agrees E ((Parser.enter name type >>= f) s) r := h

theorem agrees_exprStmt {e : Phrase .expression} {rest : List Token} (h : Accepts E room e)
    (hs : s.ahead = e.tokens ++ rest) (hclose : (following rest .endOfFile).Closes) :
    Agrees E (exprStmt (expression room) s)
      (.ok (e.statement s.table).1 (s.past e.tokens rest (e.statement s.table).2)) := by
  rw [exprStmt, current_bind, ← startOf_eq_current e.tokens_ne_nil hs]
  exact (h s rest hs hclose).bind (fun _ => .pure _) (.refl _)

theorem agrees_declarator {type : Datatype} {d : Declarator} {rest : List Token}
    (hfit : Within E room d.depth d.tokens) (hs : s.ahead = d.tokens ++ rest)
    (hclose : (following rest .endOfFile).Closes) :
    Agrees E (declarator type (expression room) s)
      (.ok (d.build type s.table).1 (s.past d.tokens rest (d.build type s.table).2)) := by
  obtain ⟨name, loc, init⟩ := d
  cases init with
  | none =>
    have hassign : following rest .endOfFile ≠ .mark .assign := by
      intro h
      rw [h] at hclose
      cases hclose.2
    refine .identifier hs (.enter (.accept_ne ?_ (.pure ?_)))
    · rw [current_lexeme]
      exact hassign
    · simp [Declarator.tokens, Declarator.build, Phrase.optionBuild]
  | some init =>
    obtain ⟨equal, e⟩ := init
    have haccept := accepts e room (hfit.of_le id fun t ht => by simp [Declarator.tokens, ht])
    refine .identifier hs (.enter (.accept rfl ?_))
    refine (haccept _ rest rfl hclose).bind (fun _ => .pure _) (.pure ?_)
    simp [Declarator.tokens, Declarator.build, Phrase.optionBuild]

theorem agrees_declarators (type : Datatype) {rest : List Token} (ds : Declarators) :
    Within E room ds.depth ds.tokens → s.ahead = ds.tokens ++ rest →
    (following rest .endOfFile).Closes →
    Agrees E (commaSeparated (declarator type (expression room)) s)
      (iterate (commaStep (declarator type (expression room))) (ds.build type s.table).1
        (s.past ds.tokens rest (ds.build type s.table).2)) := by
  have horder : Orderly (declarator type (expression room)) := .declarator type (.expression room)
  induction ds generalizing rest with
  | one d =>
    intro hfit hs hclose
    rw [commaSeparated_eq]
    exact (agrees_declarator hfit hs hclose).bind (fun _ => .iterate (Orderly.commaStep horder) _)
      (.refl _)
  | another before comma d ih =>
    intro hfit hs hclose
    have hahead : s.ahead = before.tokens ++ ⟨.mark .comma, comma⟩ :: (d.tokens ++ rest) := by
      rw [hs]
      simp [Declarators.tokens]
    obtain ⟨hbefore, hlast⟩ := Within.sides hfit
    refine (ih hbefore hahead Lexeme.closes_comma).trans
      (iterate_go (productive_commaStep horder) (.commaStep horder) (.accept rfl ?_))
    refine (agrees_declarator hlast rfl hclose).bind (fun _ => .pure _) (.pure ?_)
    simp [Declarators.tokens, Declarators.build]

theorem agrees_variableDecls {v : Variables} {semicolon : Location} {rest : List Token}
    (hfit : Within E room v.depth v.tokens)
    (hs : s.ahead = v.tokens ++ ⟨.mark .semicolon, semicolon⟩ :: rest) :
    Agrees E (variableDecls (expression room) s) (.ok (v.build s.table).1
      (s.past (v.tokens ++ [⟨.mark .semicolon, semicolon⟩]) rest (v.build s.table).2)) := by
  have horder : ∀ type, Orderly (declarator type (expression room)) := fun type =>
    .declarator type (.expression room)
  have hds : Within E room v.declarators.depth v.declarators.tokens :=
    hfit.of_le id fun t ht => List.mem_cons_of_mem _ ht
  refine .datatype hs ?_
  have hlist := agrees_declarators v.typeName.type (s := s.past [v.typeName.token]
    (v.declarators.tokens ++ ⟨.mark .semicolon, semicolon⟩ :: rest) s.table) v.declarators hds rfl
    Lexeme.closes_semicolon
  rw [iterate_stop (productive_commaStep (horder _))
    (commaStep_stop (by simp [State.current]))] at hlist
  refine hlist.bind (fun _ => (Orderly.expect _).bind fun _ => .pure _) (.expect rfl (.pure ?_))
  simp [Variables.tokens, Variables.build]

theorem agrees_condition {e : Phrase .expression} {opening closing : Location}
    {rest : List Token} (h : Accepts E room e)
    (hs : s.ahead = ⟨.mark .parenOpen, opening⟩ ::
      (e.tokens ++ ⟨.mark .parenClose, closing⟩ :: rest)) :
    Agrees E (condition (expression room) s) (.ok (e.build s.table).1
      (s.past (⟨.mark .parenOpen, opening⟩ :: (e.tokens ++ [⟨.mark .parenClose, closing⟩])) rest
        (e.build s.table).2)) := by
  refine .expect hs ((h _ (⟨.mark .parenClose, closing⟩ :: rest) rfl Lexeme.closes_parenClose).bind
    (fun _ => (Orderly.expect _).bind fun _ => .pure _) (.expect rfl (.pure ?_)))
  simp

theorem agrees_forCondition {cond : Option (Phrase .expression)} {semicolon : Location}
    {rest : List Token} (hfit : Within E room (Phrase.optionDepth cond) (Phrase.optionTokens cond))
    (hs : s.ahead = Phrase.optionTokens cond ++ ⟨.mark .semicolon, semicolon⟩ :: rest) :
    Agrees E (forCondition (expression room) s)
      (.ok ((Phrase.optionBuild cond s.table).1.getD (.literal (.bool true) semicolon))
        (s.past (Phrase.optionTokens cond ++ [⟨.mark .semicolon, semicolon⟩]) rest
          (Phrase.optionBuild cond s.table).2)) := by
  rw [forCondition_eq]
  cases cond with
  | none => exact closedBy_absent hs
  | some e =>
    have hrun := closedBy_present (fun loc => .literal (.bool true) loc)
      (current_ne_of_startsPhrase e hs rfl)
      (accepts e room hfit s _ hs Lexeme.closes_semicolon) rfl
    simpa [Phrase.optionBuild, Phrase.optionTokens] using hrun

theorem agrees_map {p : Parser α} {β : Type} {f : α → β} {a : α} (h : Agrees E (p s) (.ok a s')) :
    Agrees E ((f <$> p) s) (.ok (f a) s') := by
  rw [map_eq_pure_bind]
  exact h.bind (fun _ => .pure _) (.refl _)

theorem agrees_forStep {step : Option (Phrase .expression)} {closing : Location}
    {rest : List Token} (hfit : Within E room (Phrase.optionDepth step) (Phrase.optionTokens step))
    (hs : s.ahead = Phrase.optionTokens step ++ ⟨.mark .parenClose, closing⟩ :: rest) :
    Agrees E (forStep (expression room) s) (.ok (Phrase.optionStatement step s.table).1
      (s.past (Phrase.optionTokens step ++ [⟨.mark .parenClose, closing⟩]) rest
        (Phrase.optionStatement step s.table).2)) := by
  rw [forStep_eq]
  cases step with
  | none => exact closedBy_absent hs
  | some e =>
    have hstmt := agrees_exprStmt (accepts e room hfit) hs Lexeme.closes_parenClose
    have hrun := closedBy_present (fun _ => none) (current_ne_of_startsPhrase e hs rfl)
      (agrees_map (f := some) hstmt) rfl
    simpa [Phrase.optionStatement, Phrase.optionTokens] using hrun

theorem agrees_returned {value : Option (Phrase .expression)} {semicolon : Location}
    {rest : List Token}
    (hfit : Within E room (Phrase.optionDepth value) (Phrase.optionTokens value))
    (hs : s.ahead = Phrase.optionTokens value ++ ⟨.mark .semicolon, semicolon⟩ :: rest) :
    Agrees E (closedBy (.mark .semicolon) (fun _ => none) (some <$> expression room) s)
      (.ok (Phrase.optionBuild value s.table).1
        (s.past (Phrase.optionTokens value ++ [⟨.mark .semicolon, semicolon⟩]) rest
          (Phrase.optionBuild value s.table).2)) := by
  cases value with
  | none => exact closedBy_absent hs
  | some e =>
    have hrun := closedBy_present (fun _ => none) (current_ne_of_startsPhrase e hs rfl)
      (agrees_map (f := some) (accepts e room hfit s _ hs Lexeme.closes_semicolon)) rfl
    simpa [Phrase.optionBuild, Phrase.optionTokens] using hrun

/-- No type name starts a statement. -/
theorem isType_eq_false_of_startsStatement {l : Lexeme} (h : l.startsStatement) :
    l.isType = false := by
  cases l with
  | keyword k => cases k <;> first | rfl | cases h
  | endOfFile | identifier | integer | mark => rfl

theorem agrees_forInit {init : ForInit} {semicolon : Location} {rest : List Token}
    (hfit : Within E room init.depth init.tokens)
    (hs : s.ahead = init.tokens ++ ⟨.mark .semicolon, semicolon⟩ :: rest) :
    Agrees E (forInit (expression room) s) (.ok (init.build s.table).1
      (s.past (init.tokens ++ [⟨.mark .semicolon, semicolon⟩]) rest (init.build s.table).2)) := by
  cases init with
  | absent => exact .accept hs (.refl _)
  | vars v =>
    have hne : s.current.lexeme ≠ .mark .semicolon := by
      rw [State.current_eq hs]
      simp [TypeName.token]
    have htype : v.typeName.token.lexeme.isType := by
      rw [Lexeme.isType, TypeName.token, Lexeme.datatype?, v.typeName.datatype?_keyword]
      rfl
    refine .accept_ne hne (.current hs ?_)
    rw [if_pos htype]
    exact agrees_variableDecls hfit hs
  | expression e =>
    obtain ⟨t, ts, htokens, ht⟩ := e.startsPhrase_head
    have hahead : s.ahead = t :: (ts ++ ⟨.mark .semicolon, semicolon⟩ :: rest) := by
      rw [hs, ForInit.tokens, htokens]
      rfl
    have htype := isType_eq_false_of_startsStatement (Lexeme.startsStatement_of_startsPhrase ht)
    refine .accept_ne (current_ne_of_startsPhrase e hs rfl) (.current hahead ?_)
    rw [htype]
    refine (agrees_exprStmt (accepts e room hfit) hs Lexeme.closes_semicolon).bind
      (fun _ => (Orderly.expect _).bind fun _ => .pure _) (.expect rfl (.pure ?_))
    simp [ForInit.tokens, ForInit.build]

/-- What the parser of each role does with the tokens of a derivation. Entries go on with the
block behind their tokens. -/
def AcceptsClause (E : Code → Prop) (room : Nat) : {r : Role} → Clause r → Prop
  | .statement, c => ∀ s rest, s.ahead = c.tokens ++ rest →
    (c.isOpen → following rest .endOfFile ≠ .keyword .elseKw) →
    Agrees E (statement room s)
      (.ok (c.build s.table).1 (s.past c.tokens rest (c.build s.table).2))
  | .entry, c => ∀ s rest, s.ahead = c.tokens ++ rest →
    following rest .endOfFile ≠ .keyword .elseKw →
    Agrees E (entry (expression room) (statement room) s)
      (.ok (c.build s.table).1 (s.past c.tokens rest (c.build s.table).2))
  | .entries, c => ∀ s rest loc, s.ahead = c.tokens ++ rest →
    following rest .endOfFile ≠ .keyword .elseKw →
    Agrees E (blockTail (expression room) (statement room) loc [] s)
      (blockTail (expression room) (statement room) loc (c.build s.table).1
        (s.past c.tokens rest (c.build s.table).2))

/-- A derivation of a statement that is within the limits. -/
abbrev FitsClause {r : Role} (E : Code → Prop) (room : Nat) (c : Clause r) : Prop :=
  Within E room c.depth c.tokens

theorem agrees_block {c : Clause .entries} {opening closing : Location} {rest : List Token}
    (h : AcceptsClause E room c)
    (hs : s.ahead = ⟨.mark .braceOpen, opening⟩ ::
      (c.tokens ++ ⟨.mark .braceClose, closing⟩ :: rest)) :
    Agrees E (block (expression room) (statement room) s) (.ok ((c.build s.table).1, opening)
      (s.past (⟨.mark .braceOpen, opening⟩ :: (c.tokens ++ [⟨.mark .braceClose, closing⟩])) rest
        (c.build s.table).2)) := by
  have hprod := productive_entryStep (Orderly.expression room) (.statement room) (.statement room)
  rw [block_eq]
  refine .expect hs ?_
  refine (h _ (⟨.mark .braceClose, closing⟩ :: rest) opening rfl (by simp)).trans ?_
  rw [blockTail_eq hprod]
  refine Agrees.bind (.inl (entryStep_of_end _ (.inl rfl)))
    ((Orderly.expression room).blockAfter (.statement room) _ _) (.expect rfl (.pure ?_))
  simp

theorem accepts_block {opening closing : Location} {body : Clause .entries}
    (hfit : FitsClause E room (.block opening body closing))
    (ih : ∀ room, FitsClause E room body → AcceptsClause E room body) :
    AcceptsClause E room (.block opening body closing) := by
  intro s rest hs _
  cases room with
  | zero => exact agrees_zero hfit
  | succ room =>
    have hahead : s.ahead = ⟨.mark .braceOpen, opening⟩ ::
        (body.tokens ++ ⟨.mark .braceClose, closing⟩ :: rest) := by
      rw [hs]
      simp [Clause.tokens]
    have hbody := ih room (hfit.of_le Nat.le_of_succ_le_succ fun t ht => by
      simp [Clause.tokens, ht])
    refine .current hahead ?_
    exact (agrees_block hbody hahead).bind (fun _ => .pure _) (.refl _)

theorem accepts_ifThen {loc opening closing : Location} {cond : Phrase .expression}
    {body : Clause .statement} (hfit : FitsClause E room (.ifThen loc opening cond closing body))
    (ih : ∀ room, FitsClause E room body → AcceptsClause E room body) :
    AcceptsClause E room (.ifThen loc opening cond closing body) := by
  intro s rest hs hopen
  cases room with
  | zero => exact agrees_zero hfit
  | succ room =>
    have hahead : s.ahead = ⟨.keyword .ifKw, loc⟩ :: ⟨.mark .parenOpen, opening⟩ ::
        (cond.tokens ++ ⟨.mark .parenClose, closing⟩ :: (body.tokens ++ rest)) := by
      rw [hs]
      simp [Clause.tokens]
    have hcond := accepts cond room (hfit.of_le
      (fun h => by rw [Clause.depth] at h; omega) fun t ht => by simp [Clause.tokens, ht])
    have hbody := ih room (hfit.of_le
      (fun h => by rw [Clause.depth] at h; omega) fun t ht => by simp [Clause.tokens, ht])
    have hexpr := Orderly.expression room
    have hstmt := Orderly.statement room
    have helse : following rest .endOfFile ≠ .keyword .elseKw := hopen rfl
    refine .current hahead (.advance hahead ?_)
    refine (agrees_condition hcond rfl).bind (fun _ => hstmt.bind fun _ =>
      (Orderly.accept _).bind fun _ => .ite (hstmt.bind fun _ => .pure _) (.pure _)) ?_
    refine (hbody _ rest rfl fun _ => helse).bind (fun _ => (Orderly.accept _).bind fun _ =>
      .ite (hstmt.bind fun _ => .pure _) (.pure _)) ?_
    refine .accept_ne (by rw [current_lexeme]; exact helse) (.pure ?_)
    simp [Clause.tokens, Clause.build]

theorem accepts_ifElse {loc opening closing elseLoc : Location} {cond : Phrase .expression}
    {body other : Clause .statement}
    (hfit : FitsClause E room (.ifElse loc opening cond closing body elseLoc other))
    (hclosed : body.isOpen = false)
    (ih : ∀ room, FitsClause E room body → AcceptsClause E room body)
    (ihOther : ∀ room, FitsClause E room other → AcceptsClause E room other) :
    AcceptsClause E room (.ifElse loc opening cond closing body elseLoc other) := by
  intro s rest hs hopen
  cases room with
  | zero => exact agrees_zero hfit
  | succ room =>
    have hahead : s.ahead = ⟨.keyword .ifKw, loc⟩ :: ⟨.mark .parenOpen, opening⟩ ::
        (cond.tokens ++ ⟨.mark .parenClose, closing⟩ ::
          (body.tokens ++ ⟨.keyword .elseKw, elseLoc⟩ :: (other.tokens ++ rest))) := by
      rw [hs]
      simp [Clause.tokens]
    have hcond := accepts cond room (hfit.of_le
      (fun h => by rw [Clause.depth] at h; omega) fun t ht => by simp [Clause.tokens, ht])
    have hbody := ih room (hfit.of_le
      (fun h => by rw [Clause.depth] at h; omega) fun t ht => by simp [Clause.tokens, ht])
    have hother := ihOther room (hfit.of_le
      (fun h => by rw [Clause.depth] at h; omega) fun t ht => by simp [Clause.tokens, ht])
    have hexpr := Orderly.expression room
    have hstmt := Orderly.statement room
    refine .current hahead (.advance hahead ?_)
    refine (agrees_condition hcond rfl).bind (fun _ => hstmt.bind fun _ =>
      (Orderly.accept _).bind fun _ => .ite (hstmt.bind fun _ => .pure _) (.pure _)) ?_
    refine (hbody _ (⟨.keyword .elseKw, elseLoc⟩ :: (other.tokens ++ rest)) rfl
      (by simp [hclosed])).bind (fun _ => (Orderly.accept _).bind fun _ =>
        .ite (hstmt.bind fun _ => .pure _) (.pure _)) ?_
    refine .accept rfl ((hother _ rest rfl hopen).bind (fun _ => .pure _) (.pure ?_))
    simp [Clause.tokens, Clause.build]

theorem accepts_whileLoop {loc opening closing : Location} {cond : Phrase .expression}
    {body : Clause .statement} (hfit : FitsClause E room (.whileLoop loc opening cond closing body))
    (ih : ∀ room, FitsClause E room body → AcceptsClause E room body) :
    AcceptsClause E room (.whileLoop loc opening cond closing body) := by
  intro s rest hs hopen
  cases room with
  | zero => exact agrees_zero hfit
  | succ room =>
    have hahead : s.ahead = ⟨.keyword .whileKw, loc⟩ :: ⟨.mark .parenOpen, opening⟩ ::
        (cond.tokens ++ ⟨.mark .parenClose, closing⟩ :: (body.tokens ++ rest)) := by
      rw [hs]
      simp [Clause.tokens]
    have hcond := accepts cond room (hfit.of_le
      (fun h => by rw [Clause.depth] at h; omega) fun t ht => by simp [Clause.tokens, ht])
    have hbody := ih room (hfit.of_le
      (fun h => by rw [Clause.depth] at h; omega) fun t ht => by simp [Clause.tokens, ht])
    refine .current hahead (.advance hahead ?_)
    refine (agrees_condition hcond rfl).bind (fun _ => (Orderly.statement room).bind fun _ =>
      .pure _) ?_
    refine (hbody _ rest rfl hopen).bind (fun _ => .pure _) (.pure ?_)
    simp [Clause.tokens, Clause.build]

theorem accepts_doWhile {loc whileLoc opening closing semicolon : Location}
    {cond : Phrase .expression} {body : Clause .statement}
    (hfit : FitsClause E room (.doWhile loc body whileLoc opening cond closing semicolon))
    (ih : ∀ room, FitsClause E room body → AcceptsClause E room body) :
    AcceptsClause E room (.doWhile loc body whileLoc opening cond closing semicolon) := by
  intro s rest hs _
  cases room with
  | zero => exact agrees_zero hfit
  | succ room =>
    have hahead : s.ahead = ⟨.keyword .doKw, loc⟩ :: (body.tokens ++
        ⟨.keyword .whileKw, whileLoc⟩ :: ⟨.mark .parenOpen, opening⟩ :: (cond.tokens ++
          ⟨.mark .parenClose, closing⟩ :: ⟨.mark .semicolon, semicolon⟩ :: rest)) := by
      rw [hs]
      simp [Clause.tokens]
    have hbody := ih room (hfit.of_le
      (fun h => by rw [Clause.depth] at h; omega) fun t ht => by simp [Clause.tokens, ht])
    have hcond := accepts cond room (hfit.of_le
      (fun h => by rw [Clause.depth] at h; omega) fun t ht => by simp [Clause.tokens, ht])
    have hexpr := Orderly.expression room
    refine .current hahead (.advance hahead ?_)
    refine (hbody _ (⟨.keyword .whileKw, whileLoc⟩ :: ⟨.mark .parenOpen, opening⟩ ::
      (cond.tokens ++ ⟨.mark .parenClose, closing⟩ :: ⟨.mark .semicolon, semicolon⟩ :: rest)) rfl
      (by simp)).bind (fun _ => (Orderly.expect _).bind fun _ => hexpr.condition.bind fun _ =>
        (Orderly.expect _).bind fun _ => .pure _) (.expect rfl ?_)
    refine (agrees_condition hcond rfl).bind (fun _ => (Orderly.expect _).bind fun _ => .pure _)
      (.expect rfl (.pure ?_))
    simp [Clause.tokens, Clause.build]

theorem accepts_forLoop {loc opening afterInit afterCond closing : Location} {init : ForInit}
    {cond step : Option (Phrase .expression)} {body : Clause .statement}
    (hfit : FitsClause E room
      (.forLoop loc opening init afterInit cond afterCond step closing body))
    (ih : ∀ room, FitsClause E room body → AcceptsClause E room body) :
    AcceptsClause E room
      (.forLoop loc opening init afterInit cond afterCond step closing body) := by
  intro s rest hs hopen
  cases room with
  | zero => exact agrees_zero hfit
  | succ room =>
    have hahead : s.ahead = ⟨.keyword .forKw, loc⟩ :: ⟨.mark .parenOpen, opening⟩ ::
        (init.tokens ++ ⟨.mark .semicolon, afterInit⟩ ::
          (Phrase.optionTokens cond ++ ⟨.mark .semicolon, afterCond⟩ ::
            (Phrase.optionTokens step ++ ⟨.mark .parenClose, closing⟩ ::
              (body.tokens ++ rest)))) := by
      rw [hs]
      simp [Clause.tokens]
    have hinit : Within E room init.depth init.tokens := hfit.of_le
      (fun h => by rw [Clause.depth] at h; omega) fun t ht => by simp [Clause.tokens, ht]
    have hcond : Within E room (Phrase.optionDepth cond) (Phrase.optionTokens cond) := hfit.of_le
      (fun h => by rw [Clause.depth] at h; omega) fun t ht => by simp [Clause.tokens, ht]
    have hstep : Within E room (Phrase.optionDepth step) (Phrase.optionTokens step) := hfit.of_le
      (fun h => by rw [Clause.depth] at h; omega) fun t ht => by simp [Clause.tokens, ht]
    have hbody := ih room (hfit.of_le
      (fun h => by rw [Clause.depth] at h; omega) fun t ht => by simp [Clause.tokens, ht])
    have hexpr := Orderly.expression room
    have hstmt := Orderly.statement room
    refine .current hahead (.advance hahead (.expect rfl ?_))
    refine (agrees_forInit hinit rfl).bind (fun _ => hexpr.forCondition.bind fun _ =>
      hexpr.forStep.bind fun _ => hstmt.bind fun _ => .pure _) ?_
    refine (agrees_forCondition hcond rfl).bind (fun _ => hexpr.forStep.bind fun _ =>
      hstmt.bind fun _ => .pure _) ?_
    refine (agrees_forStep hstep rfl).bind (fun _ => hstmt.bind fun _ => .pure _) ?_
    refine (hbody _ rest rfl hopen).bind (fun _ => .pure _) (.pure ?_)
    simp [Clause.tokens, Clause.build]

theorem accepts_returning {loc semicolon : Location} {value : Option (Phrase .expression)}
    (hfit : FitsClause E room (.returning loc value semicolon)) :
    AcceptsClause E room (.returning loc value semicolon) := by
  intro s rest hs _
  cases room with
  | zero => exact agrees_zero hfit
  | succ room =>
    have hahead : s.ahead = ⟨.keyword .returnKw, loc⟩ ::
        (Phrase.optionTokens value ++ ⟨.mark .semicolon, semicolon⟩ :: rest) := by
      rw [hs]
      simp [Clause.tokens]
    have hvalue : Within E room (Phrase.optionDepth value) (Phrase.optionTokens value) :=
      hfit.of_le (fun h => by rw [Clause.depth] at h; omega) fun t ht => by
        simp [Clause.tokens, ht]
    refine .current hahead ?_
    dsimp only
    rw [returning_eq]
    refine .advance hahead ((agrees_returned hvalue rfl).bind (fun _ => .pure _) (.pure ?_))
    simp [Clause.tokens, Clause.build]

theorem statement_of_startsPhrase (h : s.current.lexeme.startsPhrase) :
    statement (room + 1) s = (do
      let stmt ← exprStmt (expression room)
      let _ ← expect (.mark .semicolon)
      return stmt : Parser Stmt) s := by
  rw [statement, current_bind]
  cases hl : s.current.lexeme with
  | keyword k =>
    rw [hl] at h
    cases k <;> first | rfl | cases h
  | mark m =>
    rw [hl] at h
    cases m <;> first | rfl | cases h
  | endOfFile | identifier | integer => rfl

theorem accepts_expr {e : Phrase .expression} {semicolon : Location}
    (hfit : FitsClause E room (.expr e semicolon)) : AcceptsClause E room (.expr e semicolon) := by
  intro s rest hs _
  cases room with
  | zero => exact agrees_zero hfit
  | succ room =>
    have hahead : s.ahead = e.tokens ++ ⟨.mark .semicolon, semicolon⟩ :: rest := by
      rw [hs]
      simp [Clause.tokens]
    obtain ⟨t, ts, htokens, ht⟩ := e.startsPhrase_head
    have hcurrent : s.current.lexeme.startsPhrase := by
      rw [htokens] at hahead
      rwa [State.current_eq hahead]
    have he := accepts e room (hfit.of_le (fun h => by rw [Clause.depth] at h; omega) fun t ht => by
      simp [Clause.tokens, ht])
    rw [statement_of_startsPhrase hcurrent]
    refine (agrees_exprStmt he hahead Lexeme.closes_semicolon).bind
      (fun _ => (Orderly.expect _).bind fun _ => .pure _) (.expect rfl (.pure ?_))
    simp [Clause.tokens, Clause.build]

theorem accepts_variables {v : Variables} {semicolon : Location}
    (hfit : FitsClause E room (.vars v semicolon)) :
    AcceptsClause E room (.vars v semicolon) := by
  intro s rest hs _
  have hahead : s.ahead = v.tokens ++ ⟨.mark .semicolon, semicolon⟩ :: rest := by
    rw [hs]
    simp [Clause.tokens]
  have htype : v.typeName.token.lexeme.isType := by
    rw [Lexeme.isType, TypeName.token, Lexeme.datatype?, v.typeName.datatype?_keyword]
    rfl
  refine .current hahead ?_
  rw [if_pos htype]
  exact agrees_variableDecls (hfit.of_le id fun t ht => by simp [Clause.tokens, ht]) hahead

theorem accepts_single {c : Clause .statement} (ih : AcceptsClause E room c) :
    AcceptsClause E room (.single c) := by
  intro s rest hs helse
  obtain ⟨t, ts, htokens, ht⟩ := c.startsStatement_head
  have hahead : s.ahead = t :: (ts ++ rest) := by
    rw [hs, Clause.tokens, htokens]
    rfl
  refine .current hahead ?_
  rw [isType_eq_false_of_startsStatement ht]
  exact (ih s rest hs fun _ => helse).bind (fun _ => .pure _) (.refl _)

/-- Neither a brace that closes a block nor an `else` starts an entry. -/
theorem current_ne_of_entry (c : Clause .entry) {rest : List Token}
    (hs : s.ahead = c.tokens ++ rest) {l : Lexeme} (htype : l.isType = false)
    (hstart : l.startsStatement = false) : s.current.lexeme ≠ l := by
  obtain ⟨t, ts, htokens, ht⟩ := c.entry_head
  rw [htokens] at hs
  rw [State.current_eq hs]
  rintro rfl
  rcases ht with ht | ht
  · rw [ht] at htype
    cases htype
  · rw [ht] at hstart
    cases hstart

theorem accepts_entries_another {before : Clause .entries} {last : Clause .entry}
    (ih : AcceptsClause E room before) (ihLast : AcceptsClause E room last) :
    AcceptsClause E room (.another before last) := by
  intro s rest loc hs helse
  have hexpr := Orderly.expression room
  have hstmt := Orderly.statement room
  have hahead : s.ahead = before.tokens ++ (last.tokens ++ rest) := by
    rw [hs]
    simp [Clause.tokens]
  have hnext : following (last.tokens ++ rest) .endOfFile ≠ .keyword .elseKw := by
    have := current_ne_of_entry last (s := s.past before.tokens (last.tokens ++ rest) s.table)
      (l := .keyword .elseKw) rfl rfl rfl
    rwa [current_lexeme] at this
  refine (ih s _ loc hahead hnext).trans ?_
  generalize hbefore : s.past before.tokens (last.tokens ++ rest) (before.build s.table).2 = s₁
  have hahead₁ : s₁.ahead = last.tokens ++ rest := by
    rw [← hbefore]
    rfl
  have htable₁ : s₁.table = (before.build s.table).2 := by
    rw [← hbefore]
    rfl
  have hstart : ¬(s₁.current.lexeme = .mark .braceClose ∨ s₁.current.lexeme = .endOfFile) :=
    not_or.2 ⟨current_ne_of_entry last hahead₁ rfl rfl, current_ne_of_entry last hahead₁ rfl rfl⟩
  have hlast := ihLast s₁ rest hahead₁ helse
  rw [blockTail_eq (productive_entryStep hexpr hstmt (.statement room))]
  rcases hlast with hlast | ⟨d, hd, hcode⟩
  · rw [bind_of_ok (entryStep_of_ok _ hstart hlast), htable₁, ← hbefore, State.past_past]
    exact .refl _
  · exact .inr ⟨d, mem_diagnostics_bind (hexpr.blockAfter hstmt loc _)
      (mem_diagnostics_entryStep _ hstart hd), hcode⟩

/-- Every derivation within the limits in which each `else` belongs to the nearest open
conditional is what its tokens are read as. -/
theorem acceptsClause {r : Role} (c : Clause r) :
    c.NearestElse → ∀ room, FitsClause E room c → AcceptsClause E room c := by
  induction c with
  | block opening body closing ih =>
    exact fun helse room hfit => accepts_block hfit (ih helse)
  | ifThen loc opening cond closing body ih =>
    exact fun helse room hfit => accepts_ifThen hfit (ih helse)
  | ifElse loc opening cond closing body elseLoc other ih ihOther =>
    rintro ⟨hclosed, helse, helse'⟩ room hfit
    exact accepts_ifElse hfit hclosed (ih helse) (ihOther helse')
  | doWhile loc body whileLoc opening cond closing semicolon ih =>
    exact fun helse room hfit => accepts_doWhile hfit (ih helse)
  | forLoop loc opening init afterInit cond afterCond step closing body ih =>
    exact fun helse room hfit => accepts_forLoop hfit (ih helse)
  | whileLoop loc opening cond closing body ih =>
    exact fun helse room hfit => accepts_whileLoop hfit (ih helse)
  | returning loc value semicolon => exact fun _ room hfit => accepts_returning hfit
  | expr e semicolon => exact fun _ room hfit => accepts_expr hfit
  | vars v semicolon => exact fun _ room hfit => accepts_variables hfit
  | single c ih => exact fun helse room hfit => accepts_single (ih helse room hfit)
  | nothing =>
    intro _ room _ s rest loc hs _
    have hself : s.past Clause.nothing.tokens rest s.table = s := State.past_nil hs
    exact .inl (by rw [Clause.build, hself])
  | another before last ih ihLast =>
    rintro ⟨helse, helse'⟩ room hfit
    refine accepts_entries_another (ih helse room (hfit.of_le ?_ fun t ht => ?_))
      (ihLast helse' room (hfit.of_le ?_ fun t ht => ?_))
    · exact fun h => (Nat.max_le.1 h).1
    · simp [Clause.tokens, ht]
    · exact fun h => (Nat.max_le.1 h).2
    · simp [Clause.tokens, ht]

end Parser

end Ember
