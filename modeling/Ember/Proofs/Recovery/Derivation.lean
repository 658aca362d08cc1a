import Ember.Proofs.Recovery.Salvage

namespace Ember.Parser

open Grammar

variable {s : State} {operand expr : Parser Expr} {stmt : Parser Stmt}

/-- The tokens of a derivation were picked between two states, and `build` gives its tree in every
table that begins with the names of the later one. Every `else` of it belongs to the nearest open
conditional. -/
structure Salvaged {α : Type} (ts : List Token) (build : SymbolTable → α × SymbolTable)
    (nearest : Prop) (s : State) (a : α) (s' : State) : Prop where
  picks : s.Picks ts s'
  settled : Settled build s'.table a
  nearest : nearest

namespace Salvaged

variable {α β γ : Type} {ts us : List Token} {f : SymbolTable → α × SymbolTable}
  {g : SymbolTable → β × SymbolTable} {n n' : Prop} {a : α} {b : β} {s₁ s₂ : State}

theorem reaches (h : Salvaged ts f n s a s₁) (hs : s₁.Reaches s₂) : Salvaged ts f n s a s₂ :=
  ⟨h.picks.reaches hs, h.settled.mono hs.names, h.nearest⟩

/-- One part after the other. -/
theorem both (k : α → β → γ) (h : Salvaged ts f n s a s₁) (hs : s₁.Reaches s₂)
    (h' : Salvaged us g n' s₁ b s₂) :
    Salvaged (ts ++ us) (fun t => (k (f t).1 (g (f t).2).1, (g (f t).2).2)) (n ∧ n') s (k a b) s₂ :=
  ⟨h.picks.trans h'.picks, (h.settled.mono hs.names).both k h'.settled, h.nearest, h'.nearest⟩

end Salvaged

/-- A derivation of a statement. Where it ends in an open conditional, no `else` comes next. -/
structure PicksAs {r : Role} (c : Clause r) (s : State) (a : r.Tree) (s' : State) : Prop extends
    Salvaged c.tokens c.build c.NearestElse s a s' where
  stops : c.isOpen → s'.current.lexeme ≠ .keyword .elseKw

theorem PicksAs.ofEntries {c : Clause .entries} {a : List Stmt} {s' : State}
    (h : Salvaged c.tokens c.build c.NearestElse s a s') : PicksAs c s a s' := by
  refine ⟨h, fun hopen => ?_⟩
  cases c <;> cases hopen

/-- From every state the parser gives a tree of the nonterminal. -/
abbrev SavesClause (r : Role) (p : Parser r.Tree) : Prop :=
  ∀ s, Saves p s fun a s' => ∃ c : Clause r, PicksAs c s a s'

section

variable {type : Datatype}

theorem saves_declarator (type : Datatype) (h : SavesPhrase .expression expr) (s : State) :
    Saves (declarator type expr) s fun a s' =>
      ∃ d : Declarator, s.Takes d.tokens s' ∧ Settled (d.build type) s'.table a := by
  refine Saves.identifier_bind fun name hname => ?_
  refine Saves.enter_bind name type fun id s₁ hs₁ hahead hid => ?_
  have htakes : s.Takes [⟨.identifier name, s.current.loc⟩] s₁ :=
    (State.Takes.identifier hname).trans (.nil hahead)
  refine Saves.accept_bind (fun hassign => ?_) fun _ => Saves.pure ?_
  · refine (h _).bind fun init s₂ hs₂ hinit => Saves.pure ?_
    obtain ⟨e, htakes', hbuild⟩ := hinit
    refine ⟨⟨name, s.current.loc, some (s₁.current.loc, e)⟩, ?_, ?_⟩
    · exact htakes.trans ((State.Takes.mark hassign).trans htakes')
    · exact (hid _ (s₁.advanced_table ▸ hs₂.names)).both
        (fun id init => Stmt.var id type init s.current.loc) (hbuild.map some)
  · refine ⟨⟨name, s.current.loc, none⟩, htakes, ?_⟩
    exact (hid _ (List.prefix_refl _)).map fun id => Stmt.var id type none s.current.loc

theorem saves_declarators (type : Datatype) (h : SavesPhrase .expression expr) (s : State) :
    Saves (commaSeparated (declarator type expr)) s fun a s' =>
      ∃ ds : Declarators, s.Takes ds.tokens s' ∧ Settled (ds.build type) s'.table a := by
  refine Saves.commaSeparated ?_ fun items s₁ hitems hcomma => ?_
  · refine (saves_declarator type h s).mono fun first s₁ _ hfirst => ?_
    obtain ⟨d, htakes, hbuild⟩ := hfirst
    exact ⟨.one d, htakes, hbuild.map fun first => [first]⟩
  · obtain ⟨ds, htakes, hbuild⟩ := hitems
    refine (saves_declarator type h s₁.advanced).mono fun item s₂ hs₂ hitem => ?_
    obtain ⟨d, htakes', hbuild'⟩ := hitem
    refine ⟨.another ds s₁.current.loc d, htakes.trans ((State.Takes.mark hcomma).trans htakes'), ?_⟩
    exact (hbuild.mono (s₁.advanced_table ▸ hs₂.names)).both (fun items item => items ++ [item])
      hbuild'

theorem saves_variableDecls (h : SavesPhrase .expression expr) (s : State) :
    Saves (variableDecls expr) s fun a s' => ∃ (v : Variables) (semicolon : Location),
      s.Takes (v.tokens ++ [⟨.mark .semicolon, semicolon⟩]) s' ∧ Settled v.build s'.table a := by
  refine Saves.datatype_bind fun n _ htype => ?_
  refine (saves_declarators n.type h _).bind fun vars s₁ _ hvars => ?_
  obtain ⟨ds, htakes, hbuild⟩ := hvars
  refine Saves.expect_bind fun hsemicolon => Saves.pure ⟨⟨n, ds⟩, s₁.current.loc, ?_, ?_⟩
  · exact (htype.trans htakes).trans (.mark hsemicolon)
  · exact s₁.advanced_table ▸ hbuild

theorem saves_exprStmt (h : SavesPhrase .expression expr) (s : State) :
    Saves (exprStmt expr) s fun a s' =>
      ∃ e : Phrase .expression, s.Takes e.tokens s' ∧ Settled e.statement s'.table a := by
  refine Saves.current_bind ((h s).bind fun e s₁ _ he => Saves.pure ?_)
  obtain ⟨d, htakes, hbuild⟩ := he
  refine ⟨d, htakes, ?_⟩
  rw [← htakes.start_eq]
  exact hbuild.map fun e => Stmt.expr e d.start

/-- An expression as a statement, with its semicolon. -/
theorem saves_expr (h : SavesPhrase .expression expr) (s : State) :
    Saves (do
      let stmt ← exprStmt expr
      let _ ← expect (.mark .semicolon)
      return stmt) s fun a s' => ∃ c : Clause .statement, PicksAs c s a s' := by
  refine (saves_exprStmt h s).bind fun a s₁ _ ha => ?_
  obtain ⟨e, htakes, hbuild⟩ := ha
  refine Saves.expect_bind fun hsemicolon => Saves.pure ⟨.expr e s₁.current.loc, ?_⟩
  exact ⟨⟨(htakes.trans (.mark hsemicolon)).picks, s₁.advanced_table ▸ hbuild, trivial⟩, nofun⟩

theorem SavesClause.entry (h : SavesPhrase .expression expr) (hs : SavesClause .statement stmt) :
    SavesClause .entry (entry expr stmt) := by
  intro s
  refine Saves.current_bind ?_
  split
  · refine (saves_variableDecls h s).mono fun a s₁ _ ha => ?_
    obtain ⟨v, semicolon, htakes, hbuild⟩ := ha
    exact ⟨.vars v semicolon, ⟨htakes.picks, hbuild, trivial⟩, nofun⟩
  · refine (hs s).bind fun a s₁ _ ha => Saves.pure ?_
    obtain ⟨c, hc⟩ := ha
    exact ⟨.single c, ⟨hc.picks, hc.settled.map fun a => [a], hc.nearest⟩, by simp [Clause.isOpen]⟩

/-- An entry that cannot be read leaves what was read before it. -/
theorem saves_entryStep (h : SavesPhrase .expression expr) (hs : SavesClause .statement stmt)
    (body : List Stmt) (s₁ : State) (hbody : ∃ c : Clause .entries, PicksAs c s body s₁) :
    Saves (entryStep expr stmt body) s₁ fun b s' =>
      ∃ c : Clause .entries, PicksAs c s (b.getD body) s' := by
  refine Saves.current_bind ?_
  dsimp only
  split
  · exact Saves.pure hbody
  refine (SavesClause.entry h hs s₁).attempt.bind fun r s₂ hs₂ hr => ?_
  obtain ⟨c, hc⟩ := hbody
  cases r with
  | ok stmts =>
    obtain ⟨last, hlast⟩ := hr stmts rfl
    exact Saves.pure ⟨.another c last, .ofEntries
      (hc.both (fun body stmts => body ++ stmts) hs₂ hlast.toSalvaged)⟩
  | error d =>
    refine (Saves.record d).bind fun _ s₃ hs₃ _ => ?_
    refine Saves.synchronize.bind fun _ s₄ hs₄ _ => Saves.pure ?_
    exact ⟨c, .ofEntries (hc.reaches (hs₂.trans (hs₃.trans hs₄)))⟩

theorem saves_block (h : SavesPhrase .expression expr) (hs : SavesClause .statement stmt)
    (s : State) :
    Saves (block expr stmt) s fun b s' => ∃ (c : Clause .entries) (closing : Location),
      s.Picks (⟨.mark .braceOpen, b.2⟩ :: (c.tokens ++ [⟨.mark .braceClose, closing⟩])) s' ∧
        Settled c.build s'.table b.1 ∧ c.NearestElse := by
  rw [block_eq]
  refine Saves.expect_bind fun hopen => ?_
  have hnothing : ∃ c : Clause .entries, PicksAs c s.advanced [] s.advanced :=
    ⟨.nothing, .ofEntries ⟨(State.Takes.nil rfl).picks, .const _ _, trivial⟩⟩
  refine (Saves.iterate (saves_entryStep h hs) hnothing).bind fun body s₁ _ hbody => ?_
  obtain ⟨c, hc⟩ := hbody
  refine Saves.expect_bind fun hclose => Saves.pure
    ⟨c, s₁.current.loc, ?_, s₁.advanced_table ▸ hc.settled, hc.nearest⟩
  exact (State.Takes.mark hopen).picks.trans (hc.picks.trans (State.Takes.mark hclose).picks)

theorem saves_condition (h : SavesPhrase .expression expr) (s : State) :
    Saves (condition expr) s fun a s' =>
      ∃ (opening : Location) (e : Phrase .expression) (closing : Location),
        s.Takes (⟨.mark .parenOpen, opening⟩ :: (e.tokens ++ [⟨.mark .parenClose, closing⟩])) s' ∧
          Settled e.build s'.table a := by
  refine Saves.expect_bind fun hopen => (h _).bind fun cond s₁ _ hcond => ?_
  obtain ⟨e, htakes, hbuild⟩ := hcond
  refine Saves.expect_bind fun hclose => Saves.pure
    ⟨s.current.loc, e, s₁.current.loc, ?_, s₁.advanced_table ▸ hbuild⟩
  exact (State.Takes.mark hopen).trans (htakes.trans (.mark hclose))

end

namespace SavesClause

theorem conditional (h : SavesPhrase .expression expr) (hs : SavesClause .statement stmt)
    (hif : s.current.lexeme = .keyword .ifKw) :
    Saves (conditional expr stmt s.current.loc) s fun a s' =>
      ∃ c : Clause .statement, PicksAs c s a s' := by
  refine Saves.advance_bind ((saves_condition h _).bind fun cond s₁ _ hcond => ?_)
  obtain ⟨opening, e, closing, htakes, hbuild⟩ := hcond
  refine (hs s₁).bind fun body s₂ hs₂ hbody => ?_
  obtain ⟨c, hc⟩ := hbody
  have hhead := ((State.Takes.keyword hif).trans htakes).picks
  have hcond := hbuild.mono hs₂.names
  refine Saves.accept_bind (fun helse => ?_) fun helse => Saves.pure ?_
  · refine (hs _).bind fun other s₃ hs₃ hother => Saves.pure ?_
    obtain ⟨o, ho⟩ := hother
    have hnames := s₂.advanced_table ▸ hs₃.names
    refine ⟨.ifElse s.current.loc opening e closing c s₂.current.loc o,
      ⟨?_, ?_, ?_⟩, ho.stops⟩
    · have hall := hhead.trans (hc.picks.trans ((State.Takes.keyword helse).picks.trans ho.picks))
      simpa [Clause.tokens] using hall
    · exact (hcond.mono hnames).both (fun cond (parts : Stmt × Stmt) =>
        Stmt.conditional cond parts.1 (some parts.2) s.current.loc)
        ((hc.settled.mono hnames).both Prod.mk ho.settled)
    · exact ⟨Bool.eq_false_iff.2 fun hopen => hc.stops hopen helse, hc.nearest, ho.nearest⟩
  · refine ⟨.ifThen s.current.loc opening e closing c, ⟨?_, ?_, hc.nearest⟩, fun _ => helse⟩
    · have hall := hhead.trans hc.picks
      simpa [Clause.tokens] using hall
    · exact hcond.both (fun cond body => Stmt.conditional cond body none s.current.loc) hc.settled

theorem whileLoop (h : SavesPhrase .expression expr) (hs : SavesClause .statement stmt)
    (hwhile : s.current.lexeme = .keyword .whileKw) :
    Saves (whileLoop expr stmt s.current.loc) s fun a s' =>
      ∃ c : Clause .statement, PicksAs c s a s' := by
  refine Saves.advance_bind ((saves_condition h _).bind fun cond s₁ _ hcond => ?_)
  obtain ⟨opening, e, closing, htakes, hbuild⟩ := hcond
  refine (hs s₁).bind fun body s₂ hs₂ hbody => Saves.pure ?_
  obtain ⟨c, hc⟩ := hbody
  refine ⟨.whileLoop s.current.loc opening e closing c, ⟨?_, ?_, hc.nearest⟩, hc.stops⟩
  · have hall := ((State.Takes.keyword hwhile).trans htakes).picks.trans hc.picks
    simpa [Clause.tokens] using hall
  · exact (hbuild.mono hs₂.names).both (fun cond body => Stmt.loop cond body s.current.loc)
      hc.settled

theorem doLoop (h : SavesPhrase .expression expr) (hs : SavesClause .statement stmt)
    (hdo : s.current.lexeme = .keyword .doKw) :
    Saves (doLoop expr stmt s.current.loc) s fun a s' =>
      ∃ c : Clause .statement, PicksAs c s a s' := by
  refine Saves.advance_bind ((hs _).bind fun body s₁ _ hbody => ?_)
  obtain ⟨c, hc⟩ := hbody
  refine Saves.expect_bind fun hwhile => (saves_condition h _).bind fun cond s₂ hs₂ hcond => ?_
  obtain ⟨opening, e, closing, htakes, hbuild⟩ := hcond
  refine Saves.expect_bind fun hsemicolon => Saves.pure
    ⟨.doWhile s.current.loc c s₁.current.loc opening e closing s₂.current.loc,
      ⟨?_, ?_, hc.nearest⟩, nofun⟩
  · have htail := (State.Takes.keyword hwhile).trans (htakes.trans (.mark hsemicolon))
    have hall := (State.Takes.keyword hdo).picks.trans (hc.picks.trans htail.picks)
    simpa [Clause.tokens] using hall
  · rw [s₂.advanced_table]
    exact (hc.settled.mono (s₁.advanced_table ▸ hs₂.names)).both (fun body cond =>
      Stmt.block [body, .loop cond body s.current.loc] s.current.loc) hbuild

theorem forInit (h : SavesPhrase .expression expr) (s : State) :
    Saves (forInit expr) s fun a s' => ∃ (i : ForInit) (semicolon : Location),
      s.Takes (i.tokens ++ [⟨.mark .semicolon, semicolon⟩]) s' ∧ Settled i.build s'.table a := by
  refine Saves.accept_bind (fun hsemicolon => Saves.pure ?_) fun _ => Saves.current_bind ?_
  · exact ⟨.absent, s.current.loc, .mark hsemicolon, .const _ _⟩
  split
  · refine (saves_variableDecls h s).mono fun a s₁ _ ha => ?_
    obtain ⟨v, semicolon, htakes, hbuild⟩ := ha
    exact ⟨.vars v, semicolon, htakes, hbuild⟩
  · refine (saves_exprStmt h s).bind fun a s₁ _ ha => ?_
    obtain ⟨e, htakes, hbuild⟩ := ha
    refine Saves.expect_bind fun hsemicolon => Saves.pure
      ⟨.expression e, s₁.current.loc, htakes.trans (.mark hsemicolon), ?_⟩
    exact s₁.advanced_table ▸ hbuild.map fun a => [a]

/-- An expression that may be absent before a mark. -/
theorem optional {α : Type} {p : Parser α} {absent : Location → α} (m : Mark)
    {build : Phrase .expression → SymbolTable → α × SymbolTable}
    (hp : ∀ s, Saves p s fun a s' =>
      ∃ e : Phrase .expression, s.Takes e.tokens s' ∧ Settled (build e) s'.table a) (s : State) :
    Saves (Parser.closedBy (.mark m) absent p) s fun a s' =>
      ∃ (e : Option (Phrase .expression)) (closing : Location),
        s.Takes (Phrase.optionTokens e ++ [⟨.mark m, closing⟩]) s' ∧
          match e with
          | none => a = absent closing
          | some e => Settled (build e) s'.table a := by
  have hp' : Saves p s fun a s' => (a = absent s.current.loc ∧ s' = s) ∨
      ∃ e : Phrase .expression, s.Takes e.tokens s' ∧ Settled (build e) s'.table a :=
    (hp s).mono fun _ _ _ ha => .inr ha
  refine Saves.closedBy (fun _ => .inl ⟨rfl, rfl⟩) hp' ?_
  rintro a s' (⟨rfl, rfl⟩ | ⟨e, htakes, hbuild⟩) hclose
  · exact ⟨none, _, .mark hclose, rfl⟩
  · exact ⟨some e, _, htakes.trans (.mark hclose), s'.advanced_table ▸ hbuild⟩

theorem forCondition (h : SavesPhrase .expression expr) (s : State) :
    Saves (forCondition expr) s fun a s' =>
      ∃ (e : Option (Phrase .expression)) (semicolon : Location),
        s.Takes (Phrase.optionTokens e ++ [⟨.mark .semicolon, semicolon⟩]) s' ∧
          Settled (fun t => ((Phrase.optionBuild e t).1.getD (.literal (.bool true) semicolon),
            (Phrase.optionBuild e t).2)) s'.table a := by
  rw [forCondition_eq]
  refine (optional .semicolon h s).mono fun a s₁ _ ha => ?_
  obtain ⟨e, semicolon, htakes, ha⟩ := ha
  refine ⟨e, semicolon, htakes, ?_⟩
  cases e with
  | none => exact ha ▸ .const _ _
  | some e => exact ha

theorem forStep (h : SavesPhrase .expression expr) (s : State) :
    Saves (forStep expr) s fun a s' =>
      ∃ (e : Option (Phrase .expression)) (closing : Location),
        s.Takes (Phrase.optionTokens e ++ [⟨.mark .parenClose, closing⟩]) s' ∧
          Settled (Phrase.optionStatement e) s'.table a := by
  rw [forStep_eq]
  have hstep : ∀ s, Saves (some <$> exprStmt expr) s fun a s' => ∃ e : Phrase .expression,
      s.Takes e.tokens s' ∧ Settled (Phrase.optionStatement (some e)) s'.table a := fun s =>
    (saves_exprStmt h s).map fun a s' ⟨e, htakes, hbuild⟩ => ⟨e, htakes, hbuild.map some⟩
  refine (optional .parenClose hstep s).mono fun a s₁ _ ha => ?_
  obtain ⟨e, closing, htakes, ha⟩ := ha
  refine ⟨e, closing, htakes, ?_⟩
  cases e with
  | none => exact ha ▸ .const _ _
  | some e => exact ha

theorem forLoop (h : SavesPhrase .expression expr) (hs : SavesClause .statement stmt)
    (hfor : s.current.lexeme = .keyword .forKw) :
    Saves (forLoop expr stmt s.current.loc) s fun a s' =>
      ∃ c : Clause .statement, PicksAs c s a s' := by
  refine Saves.advance_bind (Saves.expect_bind fun hopen => ?_)
  refine (forInit h _).bind fun init s₁ _ hinit => ?_
  refine (forCondition h s₁).bind fun cond s₂ hs₂ hcond => ?_
  refine (forStep h s₂).bind fun step s₃ hs₃ hstep => ?_
  refine (hs s₃).bind fun body s₄ hs₄ hbody => Saves.pure ?_
  obtain ⟨i, afterInit, htakesInit, hinit⟩ := hinit
  obtain ⟨e, afterCond, htakesCond, hcond⟩ := hcond
  obtain ⟨e', closing, htakesStep, hstep⟩ := hstep
  obtain ⟨c, hc⟩ := hbody
  refine ⟨.forLoop s.current.loc s.advanced.current.loc i afterInit e afterCond e' closing c,
    ⟨?_, ?_, hc.nearest⟩, hc.stops⟩
  · have hhead := (State.Takes.keyword hfor).trans (.mark hopen)
    have hclauses := htakesInit.trans (htakesCond.trans htakesStep)
    have hall := (hhead.trans hclauses).picks.trans hc.picks
    simpa [Clause.tokens] using hall
  · have hnames := hs₃.names.trans hs₄.names
    exact (hinit.mono (hs₂.names.trans hnames)).both
      (fun init (parts : Expr × Option Stmt × Stmt) =>
        Stmt.block (init ++ [.loop parts.1 (stepped parts.2.2 parts.2.1) s.current.loc])
          s.current.loc)
      ((hcond.mono hnames).both Prod.mk ((hstep.mono hs₄.names).both Prod.mk hc.settled))

theorem returning (h : SavesPhrase .expression expr)
    (hreturn : s.current.lexeme = .keyword .returnKw) :
    Saves (returning expr s.current.loc) s fun a s' =>
      ∃ c : Clause .statement, PicksAs c s a s' := by
  rw [returning_eq]
  have hvalue : ∀ s, Saves (some <$> expr) s fun a s' => ∃ e : Phrase .expression,
      s.Takes e.tokens s' ∧ Settled (Phrase.optionBuild (some e)) s'.table a := fun s =>
    (h s).map fun a s' ⟨e, htakes, hbuild⟩ => ⟨e, htakes, hbuild.map some⟩
  refine Saves.advance_bind ((optional .semicolon hvalue _).bind fun value s₁ _ hvalue => ?_)
  obtain ⟨e, semicolon, htakes, hvalue⟩ := hvalue
  refine Saves.pure ⟨.returning s.current.loc e semicolon, ⟨?_, ?_, trivial⟩, nofun⟩
  · exact ((State.Takes.keyword hreturn).trans htakes).picks
  · have hbuild : Settled (Phrase.optionBuild e) s₁.table value := by
      cases e with
      | none => exact hvalue ▸ .const _ _
      | some e => exact hvalue
    exact hbuild.map fun value => Stmt.returning value s.current.loc

theorem statement : (room : Nat) → SavesClause .statement (statement room)
  | 0 => fun _ => Saves.current_bind (Saves.fail _ _ _)
  | room + 1 => by
    intro s
    have hexpr := SavesPhrase.expression room
    refine Saves.current_bind ?_
    split
    · refine (saves_block hexpr (statement room) s).bind fun b s₁ _ hb => Saves.pure ?_
      obtain ⟨c, closing, hpicks, hbuild, hnearest⟩ := hb
      exact ⟨.block b.2 c closing,
        ⟨hpicks, hbuild.map fun body => Stmt.block body b.2, hnearest⟩, nofun⟩
    · exact conditional hexpr (statement room) ‹_›
    · exact doLoop hexpr (statement room) ‹_›
    · exact forLoop hexpr (statement room) ‹_›
    · exact whileLoop hexpr (statement room) ‹_›
    · exact returning hexpr ‹_›
    · exact saves_expr hexpr s

end SavesClause

theorem saves_param (s : State) :
    Saves param s fun a s' =>
      ∃ p : Parameter, s.Takes p.tokens s' ∧ Settled p.build s'.table a := by
  refine Saves.current_bind (Saves.datatype_bind fun n hn htype => ?_)
  refine Saves.identifier_bind fun name hname => ?_
  refine Saves.enter_bind name n.type fun id s₁ _ hahead hid => Saves.pure ?_
  refine ⟨⟨n, name, s.advanced.current.loc⟩, ?_, ?_⟩
  · exact htype.trans ((State.Takes.identifier hname).trans (.nil hahead))
  · rw [← hn]
    exact (hid _ (List.prefix_refl _)).map fun id => Param.mk id n.type n.loc

theorem saves_params (s : State) :
    Saves params s fun a s' =>
      ∃ (opening : Location) (ps : Option Parameters) (closing : Location),
        s.Takes (⟨.mark .parenOpen, opening⟩ ::
          (Parameters.optionTokens ps ++ [⟨.mark .parenClose, closing⟩])) s' ∧
          Settled (Parameters.optionBuild ps) s'.table a := by
  rw [params_eq]
  refine Saves.expect_bind fun hopen => ?_
  have hlist : Saves (commaSeparated param) s.advanced fun a s' =>
      ∃ ps : Parameters, s.advanced.Takes ps.tokens s' ∧ Settled ps.build s'.table a := by
    refine Saves.commaSeparated ?_ fun items s₁ hitems hcomma => ?_
    · refine (saves_param _).mono fun first s₁ _ hfirst => ?_
      obtain ⟨p, htakes, hbuild⟩ := hfirst
      exact ⟨.one p, htakes, hbuild.map fun first => [first]⟩
    · obtain ⟨ps, htakes, hbuild⟩ := hitems
      refine (saves_param s₁.advanced).mono fun item s₂ hs₂ hitem => ?_
      obtain ⟨p, htakes', hbuild'⟩ := hitem
      refine ⟨.another ps s₁.current.loc p,
        htakes.trans ((State.Takes.mark hcomma).trans htakes'), ?_⟩
      exact (hbuild.mono (s₁.advanced_table ▸ hs₂.names)).both
        (fun items item => items ++ [item]) hbuild'
  have hoption : Saves (commaSeparated param) s.advanced fun a s' =>
      ∃ ps : Option Parameters, s.advanced.Takes (Parameters.optionTokens ps) s' ∧
        Settled (Parameters.optionBuild ps) s'.table a :=
    hlist.mono fun _ _ _ ⟨ps, htakes, hbuild⟩ => ⟨some ps, htakes, hbuild⟩
  refine Saves.closedBy (fun _ => ⟨none, .nil rfl, .const _ _⟩) hoption ?_
  rintro a s' ⟨ps, htakes, hbuild⟩ hclose
  refine ⟨s.current.loc, ps, s'.current.loc, ?_, s'.advanced_table ▸ hbuild⟩
  exact (State.Takes.mark hopen).trans (htakes.trans (.mark hclose))

theorem saves_function (room : Nat) (hfn : s.current.lexeme = .keyword .fnKw) :
    Saves (function room) s fun a s' =>
      ∃ f : Function, s.Picks f.tokens s' ∧ Settled f.build s'.table a ∧ f.body.NearestElse := by
  refine Saves.current_bind (Saves.advance_bind (Saves.identifier_bind fun name hname => ?_))
  refine Saves.enter_bind name .empty fun id s₁ _ hahead hid => ?_
  refine (saves_params s₁).bind fun ps s₂ hs₂ hps => ?_
  obtain ⟨opening, params, closing, htakes, hparams⟩ := hps
  refine Saves.expect_bind fun hcolon => Saves.datatype_bind fun result _ hresult => ?_
  refine Saves.retype_bind id result.type ?_
  refine (saves_block (SavesPhrase.expression room) (SavesClause.statement room) _).bind
    fun b s₃ hs₃ hb => Saves.pure ?_
  obtain ⟨c, bodyClosing, hpicks, hbuild, hnearest⟩ := hb
  have hnames : s₂.table.names <+: s₃.table.names := by
    have hnames := hs₃.names
    rwa [SymbolTable.names_retype, State.advanced_table, State.advanced_table] at hnames
  refine ⟨⟨s.current.loc, name, s.advanced.current.loc, opening, params, closing, s₂.current.loc,
    result, b.2, c, bodyClosing⟩, ?_, ?_, hnearest⟩
  · have hhead := (State.Takes.keyword hfn).trans ((State.Takes.identifier hname).trans (.nil hahead))
    have htyped := htakes.trans ((State.Takes.mark hcolon).trans hresult)
    have hbody : s₂.advanced.advanced.Picks _ s₃ := ⟨hpicks.ahead, hpicks.inRange⟩
    have hall := (hhead.trans htyped).picks.trans hbody
    simpa [Function.tokens] using hall
  · -- Typing the name of the function keeps the names of the table.
    intro t ht
    obtain ⟨t₁, hbuild₁, hnames₁⟩ := hid _ (hs₂.names.trans hnames) t ht
    obtain ⟨t₂, hbuild₂, hnames₂⟩ := (hparams.mono hnames) t₁ (hnames₁ ▸ ht)
    obtain ⟨t₃, hbuild₃, hnames₃⟩ := hbuild (t₂.retype id result.type) (by
      rw [SymbolTable.names_retype, hnames₂, hnames₁]
      exact ht)
    refine ⟨t₃, ?_, by rw [hnames₃, SymbolTable.names_retype, hnames₂, hnames₁]⟩
    cases hbuild₁
    simp only [Function.build, hbuild₂, hbuild₃]

theorem saves_declaration (room : Nat) (s : State) :
    Saves (declaration room) s fun a s' =>
      ∃ d : Declaration, Salvaged d.tokens d.build d.NearestElse s a s' := by
  refine Saves.current_bind ?_
  split
  · rename_i hfn
    refine (saves_function room hfn).bind fun a s₁ _ ha => Saves.pure ?_
    obtain ⟨f, hpicks, hbuild, hnearest⟩ := ha
    exact ⟨.function f, hpicks, hbuild.map fun a => [a], hnearest⟩
  · have hentry := SavesClause.entry (SavesPhrase.expression room) (SavesClause.statement room) s
    exact hentry.mono fun _ _ _ ⟨c, hc⟩ => ⟨.entry c, hc.toSalvaged⟩

/-- A declaration that cannot be read leaves what was read before it. -/
theorem saves_declarationStep (room : Nat) (body : List Stmt) (s₁ : State)
    (hbody : ∃ m : Module, Salvaged m.tokens m.build m.NearestElse s body s₁) :
    Saves (declarationStep room body) s₁ fun b s' =>
      ∃ m : Module, Salvaged m.tokens m.build m.NearestElse s (b.getD body) s' := by
  refine Saves.current_bind ?_
  split
  · exact Saves.pure hbody
  refine (saves_declaration room s₁).attempt.bind fun r s₂ hs₂ hr => ?_
  obtain ⟨m, hm⟩ := hbody
  cases r with
  | ok stmts =>
    obtain ⟨last, hlast⟩ := hr stmts rfl
    exact Saves.pure ⟨.another m last, hm.both (fun body stmts => body ++ stmts) hs₂ hlast⟩
  | error d =>
    refine (Saves.record d).bind fun _ s₃ hs₃ _ => ?_
    refine Saves.synchronize.bind fun _ s₄ hs₄ _ => ?_
    refine Saves.skipBraces.bind fun _ s₅ hs₅ _ => Saves.pure ?_
    exact ⟨m, hm.reaches (hs₂.trans (hs₃.trans (hs₄.trans hs₅)))⟩

theorem saves_declarations (room : Nat) (s : State) :
    Saves (declarations room) s fun a s' =>
      ∃ m : Module, Salvaged m.tokens m.build m.NearestElse s a s' := by
  rw [declarations_eq]
  exact Saves.iterate (saves_declarationStep room)
    ⟨.nothing, (State.Takes.nil rfl).picks, .const _ _, trivial⟩

end Ember.Parser

namespace Ember

open Grammar Ember.Parser

/-- What is read of a stream is the tree of a derivation of some of its tokens, in which every
`else` belongs to the nearest open conditional and no integer is out of range. -/
theorem TokenStream.exists_derivation (room : Nat) (file : String) (stream : TokenStream)
    (table : SymbolTable) :
    ∃ m : Module, m.tokens.Sublist stream.tokens ∧ (∀ t ∈ m.tokens, t.InRange) ∧ m.NearestElse ∧
      Settled m.build (stream.parseWithin room file table).table
        (stream.parseWithin room file table).program.body := by
  have hsaves := saves_declarations room (State.start stream table)
  obtain ⟨body, s, hrun⟩ := declarations_ok room (State.start stream table)
  unfold Saves at hsaves
  rw [hrun] at hsaves
  obtain ⟨-, m, hm⟩ := hsaves
  rw [TokenStream.parseWithin_of_ok hrun]
  refine ⟨m, ?_, hm.picks.inRange, hm.nearest, hm.settled⟩
  exact (List.sublist_append_left m.tokens s.ahead).trans hm.picks.ahead

end Ember
