import Ember.Proofs.Parser.Reading.Expression

namespace Ember.Parser

open Grammar

variable {α β : Type} {room : Nat} {expr : Parser Expr} {stmt : Parser Stmt}

theorem Recognizes.map {L : Language α} {ls : List Lexeme} {p : Parser α} (f : α → β)
    (h : Recognizes L room ls p) :
    Recognizes (fun room t ts next b t' => ∃ a, b = f a ∧ L room t ts next a t') room ls
      (f <$> p) := by
  rw [map_eq_pure_bind, ← List.append_nil ls]
  refine (h.bind fun a => .nothing (f a)).mono ?_ ?_
  · rintro room t ts next next' b t' hnext ⟨a, rfl, hl⟩
    exact ⟨a, rfl, h.widens hnext hl⟩
  · rintro room t ts next b t' ⟨ts', _, a, _, rfl, hl, rfl, rfl, rfl⟩
    exact ⟨a, rfl, by simpa using hl⟩

namespace Language

def declarator (type : Datatype) : Language Stmt :=
  fun room t ts _ a t' => ∃ d : Declarator, d.tokens = ts ∧ d.build type t = (a, t') ∧
    d.depth ≤ room

def declarators (type : Datatype) : Language (List Stmt) :=
  fun room t ts _ a t' => ∃ d : Declarators, d.tokens = ts ∧ d.build type t = (a, t') ∧
    d.depth ≤ room

/-- Declarations of variables with the semicolon behind them. -/
def vars : Language (List Stmt) :=
  fun room t ts _ a t' => ∃ (v : Variables) (semicolon : Location),
    ts = v.tokens ++ [⟨.mark .semicolon, semicolon⟩] ∧ v.build t = (a, t') ∧ v.depth ≤ room

/-- An expression as a statement. -/
def exprStmt : Language Stmt :=
  fun room t ts _ a t' => ∃ e : Phrase .expression, e.tokens = ts ∧ e.statement t = (a, t') ∧
    e.depth ≤ room

/-- The texts of a nonterminal of statements, with their trees. Where they end in an open
conditional, no `else` comes next. -/
def clause (r : Role) : Language r.Tree :=
  fun room t ts next a t' => ∃ c : Clause r, c.tokens = ts ∧ c.build t = (a, t') ∧
    c.depth ≤ room ∧ c.NearestElse ∧ (c.isOpen → next ≠ .keyword .elseKw)

theorem widens_declarator (type : Datatype) : (declarator type).Widens := by
  rintro room t ts next next' a t' _ ⟨d, rfl, hbuild, hdepth⟩
  exact ⟨d, rfl, hbuild, by omega⟩

theorem widens_declarators (type : Datatype) : (declarators type).Widens := by
  rintro room t ts next next' a t' _ ⟨d, rfl, hbuild, hdepth⟩
  exact ⟨d, rfl, hbuild, by omega⟩

theorem widens_variables : vars.Widens := by
  rintro room t ts next next' a t' _ ⟨v, semicolon, rfl, hbuild, hdepth⟩
  exact ⟨v, semicolon, rfl, hbuild, by omega⟩

theorem widens_exprStmt : exprStmt.Widens := by
  rintro room t ts next next' a t' _ ⟨e, rfl, hbuild, hdepth⟩
  exact ⟨e, rfl, hbuild, by omega⟩

theorem widens_clause (r : Role) : (clause r).Widens := by
  rintro room t ts next next' a t' hnext ⟨c, rfl, hbuild, hdepth, helse, hopen⟩
  refine ⟨c, rfl, hbuild, by omega, helse, fun h => ?_⟩
  rcases hnext with rfl | hnext
  · exact hopen h
  · exact hnext

/-- An empty block is a statement. -/
theorem completedBy_statement (room : Nat) :
    (clause .statement).CompletedBy room [.mark .braceOpen, .mark .braceClose] := by
  refine ⟨by simp [Lexeme.isFiller], by simp, fun us t next hus _ => ?_⟩
  obtain ⟨u, us, rfl, hu, hus⟩ := List.map_eq_cons_iff.1 hus
  obtain ⟨u', rfl, hu'⟩ := List.map_eq_singleton_iff.1 hus
  refine ⟨_, _, .block u.loc .nothing u'.loc, ?_, rfl, Nat.le_add_left .., trivial,
    by simp [Clause.isOpen]⟩
  simp [Clause.tokens, ← hu, ← hu']

end Language

theorem Recognizes.declarator (type : Datatype) (h : ReadsPhrase .expression room expr) :
    Recognizes (.declarator type) room [.identifier "x"] (declarator type expr) := by
  have hread : Recognizes _ room ([.identifier "x"] ++ ([] ++ [])) (Parser.declarator type expr) :=
    Recognizes.identifier.bind fun a => (Recognizes.enter a.1 type).bind fun id =>
      .accept_bind rfl (h.bind fun e => .nothing _) (.nothing _)
  refine hread.mono (Language.widens_declarator type) ?_
  rintro room t ts next a t' ⟨_, _, ⟨name, loc⟩, _, rfl, ⟨rfl, rfl⟩, h⟩
  obtain ⟨_, _, id, t₂, rfl, ⟨rfl, hid⟩, h⟩ := h
  cases hid
  rcases h with ⟨_, _, equal, _, rfl, ⟨rfl, rfl⟩, h⟩ | ⟨rfl, rfl, rfl⟩
  · obtain ⟨_, _, e, t₃, rfl, ⟨init, rfl, hbuild, hdepth⟩, rfl, rfl, rfl⟩ := h
    refine ⟨⟨name, loc, some (equal, init)⟩, by simp [Declarator.tokens], ?_, hdepth⟩
    simp [Declarator.build, Phrase.optionBuild, hbuild]
  · exact ⟨⟨name, loc, none⟩, rfl, rfl, Nat.zero_le _⟩

theorem Recognizes.declarators (type : Datatype) (h : ReadsPhrase .expression room expr) :
    Recognizes (.declarators type) room [.identifier "x"]
      (Parser.commaSeparated (Parser.declarator type expr)) := by
  refine (Recognizes.declarator type h).commaSeparated (Language.widens_declarators type) ?_ ?_
  · rintro room t ts next a t' ⟨d, rfl, hbuild, hdepth⟩
    exact ⟨.one d, rfl, by rw [Declarators.build, hbuild], hdepth⟩
  · rintro room t ts t' ts' as a next t'' comma ⟨ds, rfl, hds, hdepth⟩ ⟨d, rfl, hd, hdepth'⟩
    refine ⟨.another ds comma d, rfl, ?_, Nat.max_le.2 ⟨hdepth, hdepth'⟩⟩
    simp only [Declarators.build, hds, hd]

theorem Recognizes.variableDecls (h : ReadsPhrase .expression room expr) :
    Recognizes .vars room
      [.keyword .voidKw, .identifier "x", .mark .semicolon] (variableDecls expr) := by
  have hread : Recognizes _ room
      ([.keyword .voidKw] ++ ([.identifier "x"] ++ ([.mark .semicolon] ++ [])))
      (Parser.variableDecls expr) :=
    Recognizes.datatype.bind fun type => (Recognizes.declarators type h).bind fun vars =>
      (Recognizes.mark _).bind fun _ => .nothing _
  refine hread.mono Language.widens_variables ?_
  rintro room t ts next a t' ⟨_, _, type, _, rfl, ⟨n, rfl, rfl, rfl⟩, _, _, vars, t₂, rfl,
    ⟨ds, rfl, hbuild, hdepth⟩, _, _, semicolon, _, rfl, ⟨rfl, rfl⟩, rfl, rfl, rfl⟩
  exact ⟨⟨n, ds⟩, semicolon, by simp [Variables.tokens], hbuild, hdepth⟩

theorem Recognizes.exprStmt (h : ReadsPhrase .expression room expr) :
    Recognizes .exprStmt room [.identifier "x"] (exprStmt expr) := by
  have hne : ∀ {room t ts next a t'},
      Language.phrase .expression room t ts next a t' → ts ≠ [] := by
    rintro room t ts next a t' ⟨e, rfl, _, _⟩
    exact e.tokens_ne_nil
  refine (Recognizes.located (fun e loc => Stmt.expr e loc) h hne).mono Language.widens_exprStmt ?_
  rintro room t ts next a t' ⟨_, rfl, e, rfl, hbuild, hdepth⟩
  exact ⟨e, rfl, by rw [Phrase.statement, hbuild]; rfl, hdepth⟩

theorem Recognizes.entry (h : ReadsPhrase .expression room expr)
    (hs : Recognizes (.clause .statement) room [.mark .braceOpen, .mark .braceClose] stmt) :
    Recognizes (.clause .entry) room [.mark .braceOpen, .mark .braceClose] (entry expr stmt) := by
  have hsingle : ∀ {room t ts next a t'}, Language.clause .statement room t ts next a t' →
      Language.clause .entry room t ts next [a] t' := by
    rintro room t ts next a t' ⟨c, rfl, hbuild, hdepth, helse, _⟩
    exact ⟨.single c, rfl, by rw [Clause.build, hbuild], hdepth, helse, by simp [Clause.isOpen]⟩
  refine ⟨h.orderly.entry hs.orderly, Language.widens_clause _, ?_, fun s hreal => ?_⟩
  · refine ⟨hs.completed.fillers, hs.completed.head, fun us t next hus hnext => ?_⟩
    obtain ⟨a, t', hc⟩ := hs.completed.completes us t next hus hnext
    exact ⟨[a], t', hsingle hc⟩
  · refine .current_bind ?_
    split
    · refine ((Recognizes.variableDecls h).outcome s hreal).mono ?_
      rintro room t ts next a t' ⟨v, semicolon, rfl, hbuild, hdepth⟩
      exact ⟨.vars v semicolon, rfl, hbuild, hdepth, trivial, by simp [Clause.isOpen]⟩
    · refine ((hs.outcome s hreal).andThen hs.widens hreal fun a => .nothing [a]).mono ?_
      rintro room t ts next a t' ⟨ts', _, c, _, rfl, hc, rfl, rfl, rfl⟩
      simpa using hsingle hc

/-- The entries of a block with its closing brace. -/
def Language.closedEntries (loc : Location) : Language (List Stmt × Location) :=
  fun room t ts _ a t' => ∃ (c : Clause .entries) (closing : Location),
    ts = c.tokens ++ [⟨.mark .braceClose, closing⟩] ∧ c.build t = (a.1, t') ∧ a.2 = loc ∧
      c.depth ≤ room ∧ c.NearestElse

namespace Language

/-- What closes a block behind the entries with the value `body`. -/
abbrev blockRest (loc : Location) (body : List Stmt) : Language (List Stmt × Location) :=
  (clause .entries).remainder (closedEntries loc) body

variable {loc : Location} {body stmts : List Stmt} {t t' t'' : SymbolTable} {ts us : List Token}
  {next : Lexeme} {a : List Stmt × Location}

/-- Nothing but the brace is missing. -/
theorem blockRest_close (closing : Location) :
    blockRest loc body room t [⟨.mark .braceClose, closing⟩] next (body, loc) t := by
  rintro t₀ ts₀ ⟨c, rfl, hbuild, hdepth, helse, _⟩
  exact ⟨c, closing, rfl, hbuild, rfl, hdepth, helse⟩

/-- An entry stands before what closes the block. -/
theorem blockRest_entry (he : clause .entry room t ts (following us next) stmts t')
    (hrest : blockRest loc (body ++ stmts) room t' us next a t'') :
    blockRest loc body room t (ts ++ us) next a t'' := by
  obtain ⟨e, rfl, hbuild, hdepth, helse, _⟩ := he
  rintro t₀ ts₀ ⟨c, rfl, hbuild', hdepth', helse', _⟩
  rw [← List.append_assoc]
  refine hrest ⟨.another c e, rfl, ?_, Nat.max_le.2 ⟨hdepth', hdepth⟩, ⟨helse', helse⟩,
    by simp [Clause.isOpen]⟩
  simp only [Clause.build, hbuild', hbuild]

end Language

/-- Behind the last entry a block goes on with the brace that closes it. -/
theorem blockTail_eq_of_end (hprod : Productive (entryStep expr stmt)) (loc : Location)
    (body : List Stmt) {s : State}
    (h : s.current.lexeme = .mark .braceClose ∨ s.current.lexeme = .endOfFile) :
    blockTail expr stmt loc body s =
      (Parser.expect (.mark .braceClose) >>= fun _ => pure (body, loc)) s := by
  rw [blockTail_eq hprod, bind_of_ok (entryStep_of_end body h)]
  rfl

/-- An entry that the end of the file cuts short is noted, and then the brace that closes the block
is missing. -/
theorem blockTail_of_cut (hprod : Productive (entryStep expr stmt)) (loc : Location)
    (body : List Stmt) {s s' : State} {d : Diagnostic}
    (h : ¬(s.current.lexeme = .mark .braceClose ∨ s.current.lexeme = .endOfFile))
    (run : entry expr stmt s = .error d s') (incomplete : d.isIncomplete)
    (noted : ∀ e ∈ s'.report, e ∈ s.report ∨ e.isIncomplete) (atEnd : s'.ahead = []) :
    ∃ d' s'', blockTail expr stmt loc body s = .error d' s'' ∧ d'.isIncomplete ∧ s''.ahead = [] ∧
      ∀ e ∈ s''.report, e ∈ s.report ∨ e.isIncomplete := by
  let s'' : State := { s' with
    report := s'.report ++ [d]
    last := (pastSemicolon s'.last s'.ahead).1
    ahead := (pastSemicolon s'.last s'.ahead).2 }
  have hnil : s''.ahead = [] := by
    simp only [s'', atEnd]
    rfl
  have hend : s''.current.lexeme = .endOfFile := by rw [current_lexeme, hnil, following_nil]
  obtain ⟨d', hd', hincomplete⟩ := expect_of_ne (l := .mark .braceClose) (s := s'') (by simp [hend])
  refine ⟨d', s'', ?_, by rw [hincomplete, hend]; rfl, hnil, ?_⟩
  · rw [blockTail_eq hprod, bind_of_ok (entryStep_of_error body h run)]
    change blockTail expr stmt loc body s'' = _
    rw [blockTail_eq_of_end hprod loc body (.inr hend)]
    exact bind_of_error hd'
  · intro e he
    rcases List.mem_append.1 he with he | he
    · exact noted e he
    · rw [List.mem_singleton.1 he]
      exact .inr incomplete

namespace Outcome

variable {loc : Location} {body : List Stmt} {s : State} {ls : List Lexeme}

theorem blockTail_of_end (hprod : Productive (entryStep expr stmt)) (hreal : s.Real)
    (h : s.current.lexeme = .mark .braceClose ∨ s.current.lexeme = .endOfFile) :
    Outcome (.blockRest loc body) room (blockTail expr stmt loc body) s := by
  have hclose : Recognizes _ room ([.mark .braceClose] ++ [])
      (Parser.expect (.mark .braceClose) >>= fun _ => pure (body, loc)) :=
    (Recognizes.mark .braceClose).bind fun _ => .nothing (body, loc)
  have hexpect := (hclose.outcome s hreal).congr (p := blockTail expr stmt loc body)
    (blockTail_eq_of_end hprod loc body h) fun hahead more finish =>
      blockTail_eq_of_end hprod loc body (by rwa [State.current_extend hahead])
  refine hexpect.mono ?_
  rintro room t ts next a t' ⟨_, _, closing, _, rfl, ⟨rfl, rfl⟩, rfl, rfl, rfl⟩
  exact Language.blockRest_close closing

/-- Before the last entry a block goes on with the next one. An entry that the end of the file cuts
short is noted, and then the brace that closes the block is missing. -/
theorem blockTail_of_entry (he : Orderly expr) (hs : Orderly stmt) (hungry : Hungry stmt)
    (h : ¬(s.current.lexeme = .mark .braceClose ∨ s.current.lexeme = .endOfFile))
    (hentry : Outcome (.clause .entry) room (entry expr stmt) s)
    (hnext : ∀ ts rest stmts table, s.ahead = ts ++ rest →
      entry expr stmt s = .ok stmts (s.past ts rest table) →
        Outcome (.blockRest loc (body ++ stmts)) room (blockTail expr stmt loc (body ++ stmts))
          (s.past ts rest table)) :
    Outcome (.blockRest loc body) room (blockTail expr stmt loc body) s := by
  have hprod := productive_entryStep he hs hungry
  have htail := he.blockAfter hs loc body
  have hsome : s.ahead ≠ [] := fun hahead => h (.inr (by rw [current_lexeme, hahead]; rfl))
  have hmore : ∀ more finish, ¬((s.extend more finish).current.lexeme = .mark .braceClose ∨
      (s.extend more finish).current.lexeme = .endOfFile) := fun more finish => by
    rwa [State.current_extend hsome]
  cases hentry with
  | deep reports =>
    obtain ⟨d, hd, hcode⟩ := reports
    refine .deep ⟨d, ?_, hcode⟩
    rw [blockTail_eq hprod]
    exact mem_diagnostics_bind htail (mem_diagnostics_entryStep body h hd)
  | broken _ reports =>
    refine .broken hsome fun more finish => ?_
    obtain ⟨d, hd, hcode⟩ := reports more finish
    refine ⟨d, ?_, hcode⟩
    rw [blockTail_eq hprod]
    exact mem_diagnostics_bind htail (mem_diagnostics_entryStep body (hmore more finish) hd)
  | stuck d s' completion run incomplete noted atEnd inRange fillers head completes =>
    obtain ⟨d', s'', hrun, hincomplete, hend, hnoted⟩ :=
      blockTail_of_cut hprod loc body h run incomplete noted atEnd
    refine .stuck d' s'' (completion ++ [.mark .braceClose]) hrun hincomplete hnoted hend inRange
      (List.forall_mem_append.2 ⟨fillers, by simp [Lexeme.isFiller]⟩)
      (Language.head?_append_ne head (by simp)) ?_
    intro us next hus _
    obtain ⟨us, closing, rfl, hus', hclosing⟩ := List.map_eq_append_iff.1 hus
    obtain ⟨⟨_, loc'⟩, rfl, rfl⟩ := List.map_eq_singleton_iff.1 hclosing
    obtain ⟨stmts, table, hentry⟩ := completes us (.mark .braceClose) hus' (by simp)
    rw [← List.append_assoc]
    exact ⟨_, table, Language.blockRest_entry hentry (Language.blockRest_close loc')⟩
  | read ts rest stmts table ahead reads inRange run steady =>
    have htext : Outcome ((Language.clause .entry).bind fun stmts => .blockRest loc (body ++ stmts))
        room (blockTail expr stmt loc body) s := by
      refine .behind (Language.widens_clause .entry) ahead reads inRange ?_ ?_
        (hnext ts rest stmts table ahead run)
      · rw [blockTail_eq hprod, bind_of_ok (entryStep_of_ok body h run)]
        rfl
      · intro hrest more finish
        rw [blockTail_eq hprod loc body,
          bind_of_ok (entryStep_of_ok body (hmore more finish) (steady hrest more finish))]
        rfl
    refine htext.mono ?_
    rintro room t ts next a t'' ⟨ts₁, ts₂, stmts, t', rfl, hentry, hrest⟩
    exact Language.blockRest_entry hentry hrest

/-- What the rest of a block comes to. The induction is on the tokens that are left. -/
theorem ofBlockTail (he : Orderly expr) (hs : Orderly stmt) (hungry : Hungry stmt)
    (hentry : Recognizes (.clause .entry) room ls (entry expr stmt)) (n : Nat) :
    ∀ (body : List Stmt) (s : State), s.Real → s.ahead.length < n →
      Outcome (.blockRest loc body) room (blockTail expr stmt loc body) s := by
  induction n with
  | zero => intro _ _ _ h; omega
  | succ n ih =>
    intro body s hreal hn
    by_cases h : s.current.lexeme = .mark .braceClose ∨ s.current.lexeme = .endOfFile
    · exact .blockTail_of_end (productive_entryStep he hs hungry) hreal h
    · refine .blockTail_of_entry he hs hungry h (hentry.outcome s hreal) ?_
      intro ts rest stmts table hahead hrun
      have hlt := Hungry.entry he hungry _ _ _ hrun
      exact ih _ _ (hreal.past hahead table) (by omega)

end Outcome

/-- The entries of a block with the braces around them, and the place of the first. -/
def Language.block : Language (List Stmt × Location) :=
  fun room t ts _ a t' => ∃ (c : Clause .entries) (closing : Location),
    ts = ⟨.mark .braceOpen, a.2⟩ :: (c.tokens ++ [⟨.mark .braceClose, closing⟩]) ∧
      c.build t = (a.1, t') ∧ c.depth ≤ room ∧ c.NearestElse

/-- A condition in parentheses. -/
def Language.condition : Language Expr :=
  fun room t ts _ a t' => ∃ (e : Phrase .expression) (opening closing : Location),
    ts = ⟨.mark .parenOpen, opening⟩ :: (e.tokens ++ [⟨.mark .parenClose, closing⟩]) ∧
      e.build t = (a, t') ∧ e.depth ≤ room

/-- Statements that are read as deep as `room` allows. -/
abbrev ReadsStatement (room : Nat) (p : Parser Stmt) : Prop :=
  Recognizes (.clause .statement) room [.mark .braceOpen, .mark .braceClose] p

theorem Recognizes.block (h : ReadsPhrase .expression room expr) (hs : ReadsStatement room stmt)
    (hungry : Hungry stmt) :
    Recognizes .block room [.mark .braceOpen, .mark .braceClose] (block expr stmt) := by
  have htail : ∀ loc, Recognizes (.closedEntries loc) room [.mark .braceClose]
      (blockTail expr stmt loc []) := by
    intro loc
    have hfirst : ∀ {room t ts next a t'}, Language.blockRest loc [] room t ts next a t' →
        Language.closedEntries loc room t ts next a t' := fun hrest =>
      @hrest _ [] ⟨.nothing, rfl, rfl, Nat.zero_le _, trivial, by simp [Clause.isOpen]⟩
    refine ⟨h.orderly.blockTail hs.orderly loc [], ?_, ?_, fun s hreal => ?_⟩
    · rintro room t ts next next' a t' _ ⟨c, closing, rfl, hbuild, hloc, hdepth, helse⟩
      exact ⟨c, closing, rfl, hbuild, hloc, by omega, helse⟩
    · refine ⟨by simp [Lexeme.isFiller], by simp, fun us t next hus _ => ?_⟩
      obtain ⟨⟨_, closing⟩, rfl, rfl⟩ := List.map_eq_singleton_iff.1 hus
      exact ⟨([], loc), t, hfirst (Language.blockRest_close closing)⟩
    · exact (Outcome.ofBlockTail h.orderly hs.orderly hungry (.entry h hs) _ [] s hreal
        (Nat.lt_succ_self _)).mono hfirst
  rw [block_eq]
  refine ((Recognizes.mark .braceOpen).bind htail).mono ?_ ?_
  · rintro room t ts next next' a t' _ ⟨c, closing, rfl, hbuild, hdepth, helse⟩
    exact ⟨c, closing, rfl, hbuild, by omega, helse⟩
  · rintro room t ts next ⟨body, loc⟩ t'
      ⟨_, _, loc, _, rfl, ⟨rfl, rfl⟩, c, closing, rfl, hbuild, rfl, hdepth, helse⟩
    exact ⟨c, closing, rfl, hbuild, hdepth, helse⟩

theorem Recognizes.condition (h : ReadsPhrase .expression room expr) :
    Recognizes .condition room [.mark .parenOpen, .identifier "x", .mark .parenClose]
      (condition expr) := by
  have hread : Recognizes _ room
      ([.mark .parenOpen] ++ ([.identifier "x"] ++ ([.mark .parenClose] ++ [])))
      (Parser.condition expr) :=
    (Recognizes.mark _).bind fun _ => h.bind fun cond => (Recognizes.mark _).bind fun _ =>
      .nothing _
  refine hread.mono ?_ ?_
  · rintro room t ts next next' a t' _ ⟨e, opening, closing, rfl, hbuild, hdepth⟩
    exact ⟨e, opening, closing, rfl, hbuild, by omega⟩
  · rintro room t ts next a t' ⟨_, _, opening, _, rfl, ⟨rfl, rfl⟩, _, _, _, _, rfl,
      ⟨e, rfl, hbuild, hdepth⟩, _, _, closing, _, rfl, ⟨rfl, rfl⟩, rfl, rfl, rfl⟩
    exact ⟨e, opening, closing, by simp, hbuild, hdepth⟩

/-- A part of a text behind an `else`. Where there is none, no `else` comes next. -/
theorem Recognizes.accept_else {K M : Language α} {ls : List Lexeme} {f : Bool → Parser α}
    (htrue : Recognizes K room ls (f true)) (hfalse : Recognizes M room [] (f false)) :
    Recognizes (((Language.lexeme (.keyword .elseKw)).bind fun _ => K).either M.notElse) room []
      (accept (.keyword .elseKw) >>= f) := by
  have h := Recognizes.accept_bind (l := .keyword .elseKw) rfl htrue hfalse
  refine ⟨h.orderly, ((Language.widens_lexeme _).bind fun _ => htrue.widens).either
    hfalse.widens.notElse, ?_, fun s hreal => ?_⟩
  · refine ⟨by simp, by simp, fun us t next hus hnext => ?_⟩
    obtain rfl : us = [] := by simpa using hus
    obtain ⟨a, t', hm⟩ := hfalse.completed.completes [] t next rfl hnext
    exact ⟨a, t', .inr ⟨hnext, hm⟩⟩
  · by_cases hs : s.current.lexeme = .keyword .elseKw
    · obtain ⟨rest, hahead⟩ := State.exists_ahead (s := s) (by simp [hs])
      refine .accept_bind_of_eq (by simp [hahead]) hs ?_
      refine .advance_bind hreal (by simp [hs]) (inRange_of_ne (by simp [hs])) htrue ?_
      intro room t ts next b t' hk
      exact .inl ⟨[s.current], ts, s.current.loc, t, rfl, ⟨by rw [← hs], rfl⟩, hk⟩
    · exact .accept_bind_of_ne hs (((hfalse.outcome s hreal).notElse hs).mono .inr)

/-- The first clause of a `for` with its semicolon. -/
def Language.forInit : Language (List Stmt) :=
  fun room t ts _ a t' => ∃ (i : ForInit) (semicolon : Location),
    ts = i.tokens ++ [⟨.mark .semicolon, semicolon⟩] ∧ i.build t = (a, t') ∧ i.depth ≤ room

theorem Recognizes.forInit (h : ReadsPhrase .expression room expr) :
    Recognizes .forInit room [.identifier "x", .mark .semicolon] (forInit expr) := by
  have hwidens : Language.forInit.Widens := by
    rintro room t ts next next' a t' _ ⟨i, semicolon, rfl, hbuild, hdepth⟩
    exact ⟨i, semicolon, rfl, hbuild, by omega⟩
  have hexpr : Recognizes .forInit room ([.identifier "x"] ++ ([.mark .semicolon] ++ [])) (do
      let init ← Parser.exprStmt expr
      let _ ← Parser.expect (.mark .semicolon)
      return [init]) := by
    refine ((Recognizes.exprStmt h).bind fun init => (Recognizes.mark _).bind fun _ =>
      .nothing [init]).mono hwidens ?_
    rintro room t ts next a t' ⟨_, _, _, _, rfl, ⟨e, rfl, hbuild, hdepth⟩, _, _, semicolon, _, rfl,
      ⟨rfl, rfl⟩, rfl, rfl, rfl⟩
    exact ⟨.expression e, semicolon, rfl, by simp [ForInit.build, hbuild], hdepth⟩
  have hother : Recognizes .forInit room [.identifier "x", .mark .semicolon] (do
      if (← current).lexeme.isType then Parser.variableDecls expr
      else
        let init ← Parser.exprStmt expr
        let _ ← Parser.expect (.mark .semicolon)
        return [init]) := by
    refine ⟨Orderly.current.bind fun _ => .ite h.orderly.variableDecls hexpr.orderly, hwidens,
      hexpr.completed, fun s hreal => ?_⟩
    refine .current_bind ?_
    split
    · refine ((Recognizes.variableDecls h).outcome s hreal).mono ?_
      rintro room t ts next a t' ⟨v, semicolon, rfl, hbuild, hdepth⟩
      exact ⟨.vars v, semicolon, rfl, hbuild, hdepth⟩
    · exact hexpr.outcome s hreal
  have hread : Recognizes _ room [.identifier "x", .mark .semicolon] (Parser.forInit expr) :=
    .accept_bind rfl (.nothing []) hother
  refine hread.mono hwidens ?_
  rintro room t ts next a t' (⟨_, _, semicolon, _, rfl, ⟨rfl, rfl⟩, rfl, rfl, rfl⟩ | h)
  · exact ⟨.absent, semicolon, rfl, rfl, Nat.zero_le _⟩
  · exact h

namespace Outcome

variable {s : State}

theorem conditional (h : ReadsPhrase .expression room expr) (hstmt : ReadsStatement room stmt)
    (hreal : s.Real) (hs : s.current.lexeme = .keyword .ifKw) :
    Outcome (Language.clause .statement).deeper room
      (conditional expr stmt s.current.loc) s := by
  refine .advance_bind hreal (by simp [hs]) (inRange_of_ne (by simp [hs]))
    ((Recognizes.condition h).bind fun cond => hstmt.bind fun body =>
      .accept_else (hstmt.bind fun other => .nothing _) (.nothing _)) ?_
  rintro room t ts next a t' ⟨_, _, cond, _, rfl, ⟨e, opening, closing, rfl, hcond, hdepth⟩, h⟩
  obtain ⟨_, _, body, _, rfl, ⟨c, rfl, hbody, hdepth', helse', hopen⟩, h⟩ := h
  rcases h with ⟨_, _, elseLoc, _, rfl, ⟨rfl, rfl⟩, h⟩ | ⟨hnext, rfl, rfl, rfl⟩
  · obtain ⟨_, _, other, _, rfl, ⟨o, rfl, hother, hdepth'', helse'', hopen'⟩, rfl, rfl, rfl⟩ := h
    refine ⟨.ifElse s.current.loc opening e closing c elseLoc o, ?_, ?_, ?_, ⟨?_, helse', helse''⟩,
      hopen'⟩
    · simp [Clause.tokens, ← hs]
    · simp only [Clause.build, hcond, hbody, hother]
    · exact Nat.succ_le_succ (Nat.max_le.2 ⟨hdepth, Nat.max_le.2 ⟨hdepth', hdepth''⟩⟩)
    · simpa using hopen
  · refine ⟨.ifThen s.current.loc opening e closing c, ?_, ?_, ?_, helse', fun _ => hnext⟩
    · simp [Clause.tokens, ← hs]
    · simp only [Clause.build, hcond, hbody]
    · exact Nat.succ_le_succ (Nat.max_le.2 ⟨hdepth, hdepth'⟩)

theorem whileLoop (h : ReadsPhrase .expression room expr) (hstmt : ReadsStatement room stmt)
    (hreal : s.Real) (hs : s.current.lexeme = .keyword .whileKw) :
    Outcome (Language.clause .statement).deeper room
      (whileLoop expr stmt s.current.loc) s := by
  refine .advance_bind hreal (by simp [hs]) (inRange_of_ne (by simp [hs]))
    ((Recognizes.condition h).bind fun cond => hstmt.bind fun body => .nothing _) ?_
  rintro room t ts next a t' ⟨_, _, cond, _, rfl, ⟨e, opening, closing, rfl, hcond, hdepth⟩,
    _, _, body, _, rfl, ⟨c, rfl, hbody, hdepth', helse', hopen⟩, rfl, rfl, rfl⟩
  refine ⟨.whileLoop s.current.loc opening e closing c, ?_, ?_, ?_, helse', hopen⟩
  · simp [Clause.tokens, ← hs]
  · simp only [Clause.build, hcond, hbody]
  · exact Nat.succ_le_succ (Nat.max_le.2 ⟨hdepth, hdepth'⟩)

theorem doLoop (h : ReadsPhrase .expression room expr) (hstmt : ReadsStatement room stmt)
    (hreal : s.Real) (hs : s.current.lexeme = .keyword .doKw) :
    Outcome (Language.clause .statement).deeper room
      (doLoop expr stmt s.current.loc) s := by
  refine .advance_bind hreal (by simp [hs]) (inRange_of_ne (by simp [hs]))
    (hstmt.bind fun body => (Recognizes.expect rfl (by simp)).bind fun _ =>
      (Recognizes.condition h).bind fun cond => (Recognizes.mark _).bind fun _ => .nothing _) ?_
  rintro room t ts next a t' ⟨_, _, body, _, rfl, ⟨c, rfl, hbody, hdepth', helse', _⟩, h⟩
  obtain ⟨_, _, whileLoc, _, rfl, ⟨rfl, rfl⟩, h⟩ := h
  obtain ⟨_, _, cond, _, rfl, ⟨e, opening, closing, rfl, hcond, hdepth⟩, h⟩ := h
  obtain ⟨_, _, semicolon, _, rfl, ⟨rfl, rfl⟩, rfl, rfl, rfl⟩ := h
  refine ⟨.doWhile s.current.loc c whileLoc opening e closing semicolon, ?_, ?_, ?_, helse',
    by simp [Clause.isOpen]⟩
  · simp [Clause.tokens, ← hs]
  · simp only [Clause.build, hcond, hbody]
  · exact Nat.succ_le_succ (Nat.max_le.2 ⟨hdepth', hdepth⟩)

theorem forLoop (h : ReadsPhrase .expression room expr) (hstmt : ReadsStatement room stmt)
    (hreal : s.Real) (hs : s.current.lexeme = .keyword .forKw) :
    Outcome (Language.clause .statement).deeper room
      (forLoop expr stmt s.current.loc) s := by
  have hcond := Recognizes.closedBy (l := .mark .semicolon) rfl (by simp)
    (fun loc => Expr.literal (.bool true) loc) h
  have hstep := ((Recognizes.exprStmt h).map some).closedBy (l := .mark .parenClose) rfl (by simp)
    fun _ => none
  refine .advance_bind hreal (by simp [hs]) (inRange_of_ne (by simp [hs]))
    ((Recognizes.mark _).bind fun _ => (Recognizes.forInit h).bind fun init =>
      hcond.bind fun cond => hstep.bind fun step => hstmt.bind fun body => .nothing _) ?_
  rintro room t ts next a t' ⟨_, _, opening, _, rfl, ⟨rfl, rfl⟩, h⟩
  obtain ⟨_, _, init, t₁, rfl, ⟨i, afterInit, rfl, hinit, hdepthInit⟩, h⟩ := h
  obtain ⟨_, _, cond, t₂, rfl, hcond, h⟩ := h
  obtain ⟨_, _, step, t₃, rfl, hstep, h⟩ := h
  obtain ⟨_, _, body, t₄, rfl, ⟨c, rfl, hbody, hdepthBody, helse, hopen⟩, rfl, rfl, rfl⟩ := h
  -- Either clause may be absent; a condition that is stands for `true`.
  obtain ⟨cond?, afterCond, hcondTokens, hcondBuild, hcondDepth⟩ :
      ∃ (cond? : Option (Phrase .expression)) (afterCond : Location),
        _ = Phrase.optionTokens cond? ++ [⟨.mark .semicolon, afterCond⟩] ∧
        ((Phrase.optionBuild cond? t₁).1.getD (.literal (.bool true) afterCond),
          (Phrase.optionBuild cond? t₁).2) = (cond, t₂) ∧ Phrase.optionDepth cond? ≤ room := by
    rcases hcond with ⟨loc, hts, rfl, rfl⟩ | ⟨ts', loc, hts, e, rfl, hbuild, hdepth⟩
    · exact ⟨none, loc, hts, rfl, Nat.zero_le _⟩
    · exact ⟨some e, loc, hts, by simp [Phrase.optionBuild, hbuild], hdepth⟩
  obtain ⟨step?, closing, hstepTokens, hstepBuild, hstepDepth⟩ :
      ∃ (step? : Option (Phrase .expression)) (closing : Location),
        _ = Phrase.optionTokens step? ++ [⟨.mark .parenClose, closing⟩] ∧
        Phrase.optionStatement step? t₂ = (step, t₃) ∧ Phrase.optionDepth step? ≤ room := by
    rcases hstep with ⟨loc, hts, rfl, rfl⟩ | ⟨ts', loc, hts, _, rfl, e, rfl, hbuild, hdepth⟩
    · exact ⟨none, loc, hts, rfl, Nat.zero_le _⟩
    · exact ⟨some e, loc, hts, by simp [Phrase.optionStatement, hbuild], hdepth⟩
  subst hcondTokens hstepTokens
  refine ⟨.forLoop s.current.loc opening i afterInit cond? afterCond step? closing c, ?_, ?_, ?_,
    helse, hopen⟩
  · simp [Clause.tokens, ← hs]
  · cases hcondBuild
    simp only [Clause.build, stepped_eq, hinit, hstepBuild, hbody]
  · exact Nat.succ_le_succ (Nat.max_le.2 ⟨hdepthInit, Nat.max_le.2 ⟨hcondDepth,
      Nat.max_le.2 ⟨hstepDepth, hdepthBody⟩⟩⟩)

theorem returning (h : ReadsPhrase .expression room expr) (hreal : s.Real)
    (hs : s.current.lexeme = .keyword .returnKw) :
    Outcome (Language.clause .statement).deeper room (returning expr s.current.loc) s := by
  rw [returning_eq]
  have hvalue := (Recognizes.map some h).closedBy (l := .mark .semicolon) rfl (by simp)
    fun _ => none
  refine .advance_bind hreal (by simp [hs]) (inRange_of_ne (by simp [hs]))
    (hvalue.bind fun value => .nothing _) ?_
  rintro room t ts next a t' ⟨_, _, value, _, rfl,
    (⟨semicolon, rfl, rfl, rfl⟩ | ⟨_, semicolon, rfl, _, rfl, e, rfl, hbuild, hdepth⟩), rfl, rfl,
    rfl⟩
  · exact ⟨.returning s.current.loc none semicolon,
      by simp [Clause.tokens, Phrase.optionTokens, ← hs], rfl, Nat.le_add_left .., trivial,
      by simp [Clause.isOpen]⟩
  · refine ⟨.returning s.current.loc (some e) semicolon, ?_, ?_, Nat.succ_le_succ hdepth, trivial,
      by simp [Clause.isOpen]⟩
    · simp [Clause.tokens, Phrase.optionTokens, ← hs]
    · simp [Clause.build, Phrase.optionBuild, hbuild]

end Outcome

/-- Statements are read as deep as they may nest. The induction is on the levels that are
left. -/
theorem ReadsStatement.statement : ∀ room : Nat, ReadsStatement room (statement room)
  | 0 => by
    refine ⟨.statement 0, Language.widens_clause _, Language.completedBy_statement 0, fun s _ => ?_⟩
    exact .ofDeep
  | room + 1 => by
    have he := ReadsPhrase.expression room
    have hs := ReadsStatement.statement room
    refine ⟨.statement _, Language.widens_clause _, Language.completedBy_statement _,
      fun s hreal => .deepen (.current_bind ?_)⟩
    split
    case h_1 =>
      refine (((Recognizes.block he hs (Hungry.statement room)).outcome s hreal).andThen ?_ hreal
        fun a => .nothing (Stmt.block a.1 a.2)).mono ?_
      · exact (Recognizes.block he hs (Hungry.statement room)).widens
      · rintro room t ts next a t'
          ⟨_, _, ⟨body, loc⟩, _, rfl, ⟨c, closing, rfl, hbuild, hdepth, helse⟩, rfl, rfl, rfl⟩
        refine ⟨.block loc c closing, by simp [Clause.tokens], ?_, Nat.succ_le_succ hdepth, helse,
          by simp [Clause.isOpen]⟩
        simp only [Clause.build, hbuild]
    case h_2 hif => exact .conditional he hs hreal hif
    case h_3 hdo => exact .doLoop he hs hreal hdo
    case h_4 hfor => exact .forLoop he hs hreal hfor
    case h_5 hwhile => exact .whileLoop he hs hreal hwhile
    case h_6 hreturn => exact .returning he hreal hreturn
    case h_7 =>
      refine (((Recognizes.exprStmt he).outcome s hreal).andThen Language.widens_exprStmt hreal
        fun a => (Recognizes.mark .semicolon).bind fun _ => .nothing a).mono ?_
      rintro room t ts next a t' ⟨_, _, _, _, rfl, ⟨e, rfl, hbuild, hdepth⟩, _, _, semicolon, _,
        rfl, ⟨rfl, rfl⟩, rfl, rfl, rfl⟩
      exact ⟨.expr e semicolon, rfl, hbuild, Nat.succ_le_succ hdepth, trivial,
        by simp [Clause.isOpen]⟩

end Ember.Parser
