import Ember.Proofs.Grammar.Program
import Ember.Proofs.Parser.Reading.Statement

namespace Ember.Parser

open Grammar

variable {room : Nat}

namespace Language

def parameter : Language Param :=
  fun _ t ts _ a t' => ∃ p : Parameter, p.tokens = ts ∧ p.build t = (a, t')

def parameters : Language (List Param) :=
  fun _ t ts _ a t' => ∃ ps : Parameters, ps.tokens = ts ∧ ps.build t = (a, t')

/-- What stands at the level of the program itself. -/
def declaration : Language (List Stmt) :=
  fun room t ts _ a t' => ∃ d : Declaration, d.tokens = ts ∧ d.build t = (a, t') ∧
    d.depth ≤ room ∧ d.NearestElse

theorem widens_parameter : parameter.Widens := widens_of_forall fun _ _ _ _ _ _ _ _ h => h

theorem widens_parameters : parameters.Widens := widens_of_forall fun _ _ _ _ _ _ _ _ h => h

theorem widens_declaration : declaration.Widens := by
  rintro room t ts next next' a t' _ ⟨d, rfl, hbuild, hdepth, helse⟩
  exact ⟨d, rfl, hbuild, by omega, helse⟩

end Language

theorem Recognizes.param :
    Recognizes .parameter room [.keyword .voidKw, .identifier "x"] param := by
  have hread :
      Recognizes _ room ([.keyword .voidKw] ++ ([.identifier "x"] ++ ([] ++ []))) typedName :=
    Recognizes.datatype.bind fun type => Recognizes.identifier.bind fun a =>
      (Recognizes.enter a.1 type).bind fun id => .nothing _
  rw [param_eq]
  refine (Recognizes.located (fun a loc => Param.mk a.1 a.2 loc) hread ?_).mono
    Language.widens_parameter ?_
  · rintro room t ts next a t' ⟨_, _, _, _, rfl, ⟨n, rfl, _⟩, _⟩
    simp
  · rintro room t ts next a t' ⟨_, rfl, _, _, _, _, rfl, ⟨n, rfl, rfl, rfl⟩, _, _, ⟨name, loc⟩, _,
      rfl, ⟨rfl, rfl⟩, _, _, id, _, rfl, ⟨rfl, hid⟩, rfl, rfl, rfl⟩
    cases hid
    exact ⟨⟨n, name, loc⟩, rfl, rfl⟩

theorem Recognizes.params :
    Recognizes (fun _ t ts _ a t' => ∃ (ps : Option Parameters) (opening closing : Location),
      ts = ⟨.mark .parenOpen, opening⟩ ::
        (Parameters.optionTokens ps ++ [⟨.mark .parenClose, closing⟩]) ∧
      Parameters.optionBuild ps t = (a, t')) room [.mark .parenOpen, .mark .parenClose] params := by
  have hlist : Recognizes .parameters room [.keyword .voidKw, .identifier "x"]
      (Parser.commaSeparated Parser.param) := by
    refine Recognizes.param.commaSeparated Language.widens_parameters ?_ ?_
    · rintro room t ts next a t' ⟨p, rfl, hbuild⟩
      exact ⟨.one p, rfl, by rw [Parameters.build, hbuild]⟩
    · rintro room t ts t' ts' as a next t'' comma ⟨ps, rfl, hps⟩ ⟨p, rfl, hp⟩
      exact ⟨.another ps comma p, rfl, by simp only [Parameters.build, hps, hp]⟩
  rw [params_eq]
  refine ((Recognizes.mark .parenOpen).bind fun _ =>
    hlist.closedBy (l := .mark .parenClose) rfl (by simp) fun _ => []).mono
      (Language.widens_of_forall fun _ _ _ _ _ _ _ _ h => h) ?_
  rintro room t ts next a t' ⟨_, _, opening, _, rfl, ⟨rfl, rfl⟩,
    (⟨closing, rfl, rfl, rfl⟩ | ⟨_, closing, rfl, ps, rfl, hps⟩)⟩
  · exact ⟨none, opening, closing, rfl, rfl⟩
  · exact ⟨some ps, opening, closing, rfl, hps⟩

theorem Outcome.function {s : State} (hreal : s.Real) (hs : s.current.lexeme = .keyword .fnKw) :
    Outcome (fun room t ts _ a t' => ∃ f : Function, f.tokens = ts ∧ f.build t = (a, t') ∧
      f.body.depth ≤ room ∧ f.body.NearestElse) room (function room) s := by
  have hblock := Recognizes.block (ReadsPhrase.expression room) (.statement room)
    (Hungry.statement room)
  refine .current_bind (.advance_bind hreal (by simp [hs]) (inRange_of_ne (by simp [hs]))
    (Recognizes.identifier.bind fun a => (Recognizes.enter a.1 .empty).bind fun id =>
      Recognizes.params.bind fun ps => (Recognizes.mark _).bind fun _ =>
        Recognizes.datatype.bind fun result =>
          (Recognizes.retype id result).bind fun _ => hblock.bind fun body => .nothing _) ?_)
  rintro room t ts next a t' ⟨_, _, ⟨name, nameLoc⟩, t₁, rfl, ⟨rfl, rfl⟩, h⟩
  obtain ⟨_, _, id, t₂, rfl, ⟨rfl, hid⟩, h⟩ := h
  obtain ⟨_, _, ps, t₃, rfl, ⟨params, opening, closing, rfl, hps⟩, h⟩ := h
  obtain ⟨_, _, colon, t₄, rfl, ⟨rfl, rfl⟩, h⟩ := h
  obtain ⟨_, _, _, t₅, rfl, ⟨result, rfl, rfl, rfl⟩, h⟩ := h
  obtain ⟨_, _, _, t₆, rfl, ⟨rfl, ht⟩, h⟩ := h
  obtain ⟨_, _, ⟨body, bodyLoc⟩, t₇, rfl, ⟨c, bodyClosing, rfl, hbody, hdepth, helse⟩, h⟩ := h
  obtain ⟨rfl, rfl, rfl⟩ := h
  cases hid
  cases ht
  refine ⟨⟨s.current.loc, name, nameLoc, opening, params, closing, colon, result, bodyLoc, c,
    bodyClosing⟩, ?_, ?_, hdepth, helse⟩
  · simp [Function.tokens, ← hs]
  · simp only [Function.build, hps, hbody]

theorem Recognizes.declaration (room : Nat) :
    Recognizes .declaration room [.mark .braceOpen, .mark .braceClose] (declaration room) := by
  have hentry := Recognizes.entry (ReadsPhrase.expression room)
    (ReadsStatement.statement room)
  have hmono : ∀ {room t ts next a t'}, Language.clause .entry room t ts next a t' →
      Language.declaration room t ts next a t' := by
    rintro room t ts next a t' ⟨c, rfl, hbuild, hdepth, helse, _⟩
    exact ⟨.entry c, rfl, hbuild, hdepth, helse⟩
  refine ⟨.declaration room, Language.widens_declaration, hentry.completed.mono hmono,
    fun s hreal => .current_bind ?_⟩
  split
  · rename_i hs
    refine ((Outcome.function hreal hs).andThen ?_ hreal fun a => .nothing [a]).mono ?_
    · rintro room t ts next next' a t' _ ⟨f, rfl, hbuild, hdepth, helse⟩
      exact ⟨f, rfl, hbuild, by omega, helse⟩
    · rintro room t ts next a t' ⟨_, _, _, _, rfl, ⟨f, rfl, hbuild, hdepth, helse⟩, rfl, rfl, rfl⟩
      exact ⟨.function f, by simp [Declaration.tokens], by simp [Declaration.build, hbuild], hdepth,
        helse⟩
  · exact (hentry.outcome s hreal).mono hmono

/-- What reading a whole program comes to, from a state whose tokens are all lexemes of the
source. -/
inductive Verdict (room : Nat) (s : State) : Prop where
  /-- The tokens are a program. -/
  | accepted (m : Module) (body : List Stmt) (table : SymbolTable) (ahead : m.tokens = s.ahead)
      (build : m.build s.table = (body, table)) (depth : m.depth ≤ room)
      (nearest : m.NearestElse) (inRange : ∀ t ∈ s.ahead, t.InRange)
      (run : declarations room s = .ok body (s.past m.tokens [] table))
  /-- The tokens end too early: with the given lexemes behind them they are a program. -/
  | cut (body : List Stmt) (s' : State) (completion : List Lexeme)
      (run : declarations room s = .ok body s') (found : ∃ d ∈ s'.report, d.isIncomplete)
      (noted : ∀ d ∈ s'.report, d ∈ s.report ∨ d.isIncomplete)
      (inRange : ∀ t ∈ s.ahead, t.InRange) (fillers : ∀ l ∈ completion, l.isFiller)
      (completes : ∀ us : List Token, us.map (·.lexeme) = completion →
        ∃ m : Module, m.tokens = s.ahead ++ us ∧ m.depth ≤ room + 1 ∧ m.NearestElse)
  /-- The program nests too deep. -/
  | deep (reports : ∃ d ∈ diagnostics (declarations room s), d.code = .nestingTooDeep)
  /-- No tokens behind those ahead can mend the program. -/
  | broken (reports : ∀ more finish,
      ∃ d ∈ diagnostics (declarations room (s.extend more finish)), d.isIncomplete = false)

/-- The declarations of `m` are read, and their statements are `body`. The parser goes on with the
tokens `rest`, also when more tokens come behind them. -/
structure Partway (room : Nat) (s : State) (m : Module) (rest : List Token) (body : List Stmt)
    (table : SymbolTable) : Prop where
  ahead : s.ahead = m.tokens ++ rest
  build : m.build s.table = (body, table)
  depth : m.depth ≤ room
  nearest : m.NearestElse
  inRange : ∀ t ∈ m.tokens, t.InRange
  run : declarations room s = iterate (declarationStep room) body (s.past m.tokens rest table)
  steady : rest ≠ [] → ∀ more finish, declarations room (s.extend more finish) =
    iterate (declarationStep room) body ((s.past m.tokens rest table).extend more finish)

namespace Partway

variable {s : State} {m : Module} {rest : List Token} {body : List Stmt} {table : SymbolTable}

theorem start (room : Nat) (s : State) : Partway room s .nothing s.ahead [] s.table where
  ahead := rfl
  build := rfl
  depth := Nat.zero_le _
  nearest := trivial
  inRange := by simp [Module.tokens]
  run := by rw [Module.tokens, State.past_nil rfl, declarations_eq]
  steady _ more finish := by rw [Module.tokens, State.past_nil rfl, declarations_eq]

/-- The next step, and what is done after it. -/
theorem run_eq (h : Partway room s m rest body table) : declarations room s =
    (declarationStep room body >>= iterateAfter (declarationStep room) body)
      (s.past m.tokens rest table) := by
  rw [h.run, (productive_declarationStep room).iterate_eq]

theorem steady_eq (h : Partway room s m rest body table) (hrest : rest ≠ []) (more : List Token)
    (finish : Location) : declarations room (s.extend more finish) =
      (declarationStep room body >>= iterateAfter (declarationStep room) body)
        ((s.past m.tokens rest table).extend more finish) := by
  rw [h.steady hrest, (productive_declarationStep room).iterate_eq]

/-- Nothing is left to read. -/
theorem accepted (h : Partway room s m [] body table) : Verdict room s := by
  have hahead : s.ahead = m.tokens := h.ahead.trans (List.append_nil _)
  refine .accepted m body table hahead.symm h.build h.depth h.nearest (hahead ▸ h.inRange) ?_
  rw [h.run_eq, bind_of_ok (declarationStep_of_end body rfl)]
  rfl

/-- What is left starts with a lexeme of the source, whatever comes behind it. -/
theorem current_ne (h : Partway room s m rest body table) (hreal : s.Real) (hrest : rest ≠ []) :
    (s.past m.tokens rest table).current.lexeme ≠ .endOfFile ∧ ∀ more finish,
      ((s.past m.tokens rest table).extend more finish).current.lexeme ≠ .endOfFile := by
  have hne : (s.past m.tokens rest table).current.lexeme ≠ .endOfFile := fun hend =>
    hrest (State.ahead_eq_nil (hreal.past h.ahead table) hend)
  refine ⟨hne, fun more finish => ?_⟩
  rwa [State.current_extend hrest]

/-- The next declaration is read. -/
theorem another (h : Partway room s m rest body table) (hreal : s.Real) {e : Declaration}
    {rest' : List Token} {stmts : List Stmt} {table' : SymbolTable} (hrest : rest = e.tokens ++ rest')
    (hsome : rest ≠ []) (hbuild : e.build table = (stmts, table')) (hdepth : e.depth ≤ room)
    (helse : e.NearestElse) (hrange : ∀ t ∈ e.tokens, t.InRange)
    (hrun : declaration room (s.past m.tokens rest table) =
      .ok stmts ((s.past m.tokens rest table).past e.tokens rest' table'))
    (hsteady : rest' ≠ [] → ∀ more finish,
      declaration room ((s.past m.tokens rest table).extend more finish) =
        .ok stmts (((s.past m.tokens rest table).past e.tokens rest' table').extend more finish)) :
    Partway room s (.another m e) rest' (body ++ stmts) table' := by
  obtain ⟨hnext, hnext'⟩ := h.current_ne hreal hsome
  refine ⟨?_, ?_, Nat.max_le.2 ⟨h.depth, hdepth⟩, ⟨h.nearest, helse⟩,
    List.forall_mem_append.2 ⟨h.inRange, hrange⟩, ?_, fun hrest' more finish => ?_⟩
  · rw [Module.tokens, h.ahead, hrest, List.append_assoc]
  · simp only [Module.build, h.build, hbuild]
  · rw [h.run_eq, bind_of_ok (declarationStep_of_ok body hnext hrun), State.past_past]
    rfl
  · rw [h.steady_eq hsome, bind_of_ok (declarationStep_of_ok body (hnext' more finish)
      (hsteady hrest' more finish)), State.past_past]
    rfl

/-- The file ends within the next declaration, which is noted. -/
theorem cut (h : Partway room s m rest body table) (hreal : s.Real) (hsome : rest ≠ [])
    {d : Diagnostic} {s' : State} {completion : List Lexeme}
    (hrun : declaration room (s.past m.tokens rest table) = .error d s')
    (hincomplete : d.isIncomplete) (hnoted : ∀ e ∈ s'.report, e ∈ s.report ∨ e.isIncomplete)
    (hend : s'.ahead = []) (hrange : ∀ t ∈ rest, t.InRange)
    (hfillers : ∀ l ∈ completion, l.isFiller)
    (hcompletes : ∀ us, us.map (·.lexeme) = completion → ∃ e : Declaration,
      e.tokens = rest ++ us ∧ e.depth ≤ room + 1 ∧ e.NearestElse) : Verdict room s := by
  let s'' : State := { s' with
    report := s'.report ++ [d]
    last := (pastBraces (pastSemicolon s'.last s'.ahead).1 (pastSemicolon s'.last s'.ahead).2).1
    ahead := (pastBraces (pastSemicolon s'.last s'.ahead).1 (pastSemicolon s'.last s'.ahead).2).2 }
  have hend' : s''.ahead = [] := by
    simp only [s'', hend]
    rfl
  have hprod := productive_declarationStep room
  have hlast : declarations room s = .ok body s'' := by
    rw [h.run_eq, bind_of_ok (declarationStep_of_error body (h.current_ne hreal hsome).1 hrun)]
    change iterate (declarationStep room) body s'' = _
    rw [hprod.iterate_eq, bind_of_ok (hprod.atEnd body s'' hend')]
    rfl
  refine .cut body s'' completion hlast ⟨d, by simp [s''], hincomplete⟩ ?_ ?_ hfillers ?_
  · intro e he
    rcases List.mem_append.1 he with he | he
    · exact hnoted e he
    · rw [List.mem_singleton.1 he]
      exact .inr hincomplete
  · rw [h.ahead]
    exact List.forall_mem_append.2 ⟨h.inRange, hrange⟩
  · intro us hus
    obtain ⟨e, htokens, hdepth, helse⟩ := hcompletes us hus
    refine ⟨.another m e, ?_, Nat.max_le.2 ⟨Nat.le_succ_of_le h.depth, hdepth⟩, h.nearest, helse⟩
    rw [Module.tokens, htokens, h.ahead, List.append_assoc]

/-- What a program comes to of which some declarations are read. The induction is on the tokens
that are left. -/
theorem verdict (hreal : s.Real) (n : Nat) :
    ∀ {m : Module} {rest : List Token} {body : List Stmt} {table : SymbolTable},
      Partway room s m rest body table → rest.length < n → Verdict room s := by
  induction n with
  | zero => intro _ _ _ _ _ h; omega
  | succ n ih =>
    intro m rest body table h hn
    have htail := Orderly.iterateAfter (Orderly.declarationStep room) body
    by_cases hrest : rest = []
    · subst hrest
      exact h.accepted
    obtain ⟨hnext, hnext'⟩ := h.current_ne hreal hrest
    cases (Recognizes.declaration room).outcome _ (hreal.past h.ahead table) with
    | deep reports =>
      obtain ⟨d, hd, hcode⟩ := reports
      refine .deep ⟨d, ?_, hcode⟩
      rw [h.run_eq]
      exact mem_diagnostics_bind htail (mem_diagnostics_declarationStep body hnext hd)
    | broken _ reports =>
      refine .broken fun more finish => ?_
      obtain ⟨d, hd, hcode⟩ := reports more finish
      refine ⟨d, ?_, hcode⟩
      rw [h.steady_eq hrest]
      exact mem_diagnostics_bind htail
        (mem_diagnostics_declarationStep body (hnext' more finish) hd)
    | stuck d s' completion run incomplete noted atEnd inRange fillers head completes =>
      refine h.cut hreal hrest run incomplete noted atEnd inRange fillers fun us hus => ?_
      obtain ⟨stmts, table', e, htokens, _, hdepth, helse⟩ := completes us .endOfFile hus (by simp)
      exact ⟨e, htokens, hdepth, helse⟩
    | read ts rest' stmts table' ahead reads inRange run steady =>
      obtain ⟨e, rfl, hbuild, hdepth, helse⟩ := reads
      have hlt := Hungry.declaration room _ _ _ run
      refine ih (h.another hreal ahead hrest hbuild hdepth helse inRange run steady) ?_
      exact Nat.lt_of_lt_of_le hlt (Nat.le_of_lt_succ hn)

end Partway

theorem verdict (room : Nat) {s : State} (hreal : s.Real) : Verdict room s :=
  (Partway.start room s).verdict hreal _ (Nat.lt_succ_self _)

end Ember.Parser
