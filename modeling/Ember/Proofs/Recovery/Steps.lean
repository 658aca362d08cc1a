import Ember.Proofs.Pieces.Joined
import Ember.Proofs.Recovery.Stretch

namespace Ember

open Grammar Ember.Parser

namespace TokenStream

variable {room : Nat} {file : String} {stream : TokenStream} {tokens : List Token}
  {table table' : SymbolTable}

/-- Tokens as a text of their own. -/
def alone (tokens : List Token) : TokenStream := ⟨tokens, .none, []⟩

/-- The places that a token has in two rows of tokens. -/
def Places (own whole : List Token) (loc loc' : Location) : Prop :=
  ∃ p ∈ own.zip whole, p.1.loc = loc ∧ p.2.loc = loc'

theorem alike_places {own whole : List Token} (h : own.map (·.lexeme) = whole.map (·.lexeme)) :
    List.Forall₂ (Token.Alike (Places own whole)) own whole := by
  obtain ⟨hlength, hzip⟩ := List.forall₂_iff_zip.1 (forall₂_lexemes h)
  exact List.forall₂_iff_zip.2 ⟨hlength, fun hmem => ⟨hzip hmem, _, hmem, rfl, rfl⟩⟩

/-- Where a text ends does not matter, unless something is missing there. -/
theorem parseWithin_finish {finish finish' : Location}
    (hreal : ∀ t ∈ tokens, t.lexeme ≠ .endOfFile)
    (hclean : (parseWithin room file ⟨tokens, finish, []⟩ table).report = []) :
    parseWithin room file ⟨tokens, finish', []⟩ table =
      parseWithin room file ⟨tokens, finish, []⟩ table := by
  obtain ⟨m, hm, helse, hdepth, hrange, -⟩ :=
    @derivation_of_clean room file ⟨tokens, finish, []⟩ table hreal hclean
  rw [parseWithin_of_derivation file table m hm helse hdepth hrange rfl,
    @parseWithin_of_derivation room ⟨tokens, finish', []⟩ file table m hm helse hdepth hrange rfl]

/-- Tokens that are a program of their own are one wherever their lexemes stand, up to the ids of
the names, and with the places of the tokens there. -/
theorem alike_alone (hne : tokens ≠ []) (hreal : ∀ t ∈ tokens, t.lexeme ≠ .endOfFile)
    (hclean : ((alone tokens).parseWithin room file table).report = [])
    (hlexemes : stream.tokens.map (·.lexeme) = tokens.map (·.lexeme))
    (hreport : stream.report = []) :
    let own := stream.parseWithin room file table'
    let parsed := (alone tokens).parseWithin room file table
    own.report = [] ∧
      Stmt.AlikeAll (own.table.SameName parsed.table) (Places stream.tokens tokens)
        own.program.body parsed.program.body := by
  obtain ⟨ownTokens, finish, report⟩ := stream
  obtain rfl : report = [] := hreport
  have hplaces := alike_places hlexemes
  -- Both texts end where they start, which is the place of one token in both.
  have hstart : Places ownTokens tokens (startOf ownTokens) (startOf tokens) := by
    cases tokens with
    | nil => exact absurd rfl hne
    | cons t rest =>
      obtain ⟨u, us, hu, -, rfl⟩ := List.forall₂_cons_right_iff.1 hplaces
      exact hu.2
  have hwhole := @parseWithin_finish room file tokens table .none (startOf tokens) hreal hclean
  obtain ⟨hiff, hbody⟩ := @clean_iff_of_alike room file table' (Places ownTokens tokens)
    ⟨ownTokens, startOf ownTokens, []⟩ ⟨tokens, startOf tokens, []⟩ table hplaces hstart rfl rfl
  have hrealOwn : ∀ t ∈ ownTokens, t.lexeme ≠ .endOfFile := by
    intro t ht
    have hmem : t.lexeme ∈ tokens.map (·.lexeme) := hlexemes ▸ List.mem_map_of_mem ht
    obtain ⟨u, hu, hlexeme⟩ := List.mem_map.1 hmem
    exact hlexeme ▸ hreal u hu
  have hcleanOwn := hiff.2 (by rw [hwhole]; exact hclean)
  have hown := @parseWithin_finish room file ownTokens table' (startOf ownTokens) finish hrealOwn
    hcleanOwn
  rw [hwhole, ← hown] at hbody
  exact ⟨by rw [hown]; exact hcleanOwn, hbody⟩

end TokenStream

namespace Parser

variable {room : Nat} {s s' : State} {α β : Type}

theorem State.Real.of_append {tokens rest : List Token} (h : s.Real)
    (hs : s.ahead = tokens ++ rest) : ∀ t ∈ rest, t.lexeme ≠ .endOfFile :=
  fun t ht => h t (by rw [hs]; exact List.mem_append_right _ ht)

theorem State.Real.current_ne (h : s.Real) (hs : s.ahead ≠ []) :
    s.current.lexeme ≠ .endOfFile := by
  obtain ⟨t, rest, ht⟩ := List.exists_cons_of_ne_nil hs
  rw [State.current_eq ht]
  exact h t (by simp [ht])

/-- Names that are entered stay, also where a declaration cannot be read. -/
theorem keeps_declaration (room : Nat) (s : State) :
    s.table.Keeps (finalState (declaration room s)).table := by
  have hlast : Option.Rel Eq s.last s.last := by
    cases s.last with
    | none => exact .none
    | some loc => exact .some rfl
  have hself : s.Alike (fun t t' => s.table.Keeps t ∧ s.table.Keeps t') Eq s :=
    ⟨Token.alike_self _, rfl, hlast, ⟨.refl _, .refl _⟩,
      List.forall₂_same.2 fun _ _ => ⟨rfl, rfl, rfl⟩⟩
  have hrun := Alike.declaration (SymbolTable.Keeps.lasting s.table) room (fun _ _ => False) s s
    hself fun _ _ h => h.elim
  generalize declaration room s = r at hrun ⊢
  cases hrun with
  | ok r' hs => exact hs.table.1
  | error hs => exact hs.table.1

/-- Behind the declarations that are read, tokens that are a program of their own are read as that
program. -/
theorem iterate_alone {file : String} {tokens rest : List Token} (body : List Stmt)
    (hreal : s.Real) (hs : s.ahead = tokens ++ rest)
    (hclean : ((TokenStream.alone tokens).parseWithin room file s.table).report = [])
    (helse : following rest .endOfFile ≠ .keyword .elseKw) :
    let parsed := (TokenStream.alone tokens).parseWithin room file s.table
    iterate (declarationStep room) body s =
      iterate (declarationStep room) (body ++ parsed.program.body)
        (s.past tokens rest parsed.table) := by
  have hrealOwn : (State.start (TokenStream.alone tokens) s.table).Real :=
    fun t ht => hreal t (by rw [hs]; exact List.mem_append_left _ ht)
  obtain ⟨m, rfl, hnearest, hdepth, hrange, hbuild⟩ :=
    TokenStream.derivation_of_clean hrealOwn hclean
  have hfit : Within (fun _ => False) room m.depth m.tokens := ⟨fun _ => hdepth, fun _ => hrange⟩
  rcases agrees_iterate m body hfit hnearest hs helse with hrun | ⟨_, _, hfalse⟩
  · rw [hrun, hbuild]
  · exact hfalse.elim

/-- A declaration that is read and notes nothing is a derivation of its tokens. -/
theorem exists_declaration {stmts : List Stmt} (hreal : s.Real) (hreport : s'.report = [])
    (hrun : declaration room s = .ok stmts s') :
    ∃ d : Declaration, s.ahead = d.tokens ++ s'.ahead ∧ d.depth ≤ room ∧ d.NearestElse ∧
      ∀ t ∈ d.tokens, t.InRange := by
  have hnone : ∀ e, e ∉ diagnostics (declaration room s) := by
    intro e
    rw [hrun, diagnostics, hreport]
    exact List.not_mem_nil
  cases (Recognizes.declaration room).outcome s hreal with
  | read tokens rest stmts' table ahead reads inRange run =>
    rw [hrun] at run
    cases run
    obtain ⟨d, rfl, -, hdepth, hnearest⟩ := reads
    exact ⟨d, ahead, hdepth, hnearest, inRange⟩
  | stuck d s'' completion run =>
    rw [hrun] at run
    cases run
  | deep reports =>
    obtain ⟨e, he, -⟩ := reports
    exact absurd he (hnone e)
  | broken _ reports =>
    obtain ⟨e, he, -⟩ := reports [] s.finish
    rw [State.extend_nil] at he
    exact absurd he (hnone e)

/-- A stretch that is no program of its own is not read to its semicolon. -/
theorem Stretch.declaration_stops {file : String} {table : SymbolTable} (g : Stretch)
    (hreal : s.Real) (hs : s.ahead = g.tokens ++ g.rest)
    (hfails : ((TokenStream.alone g.tokens).parseWithin room file table).report ≠ []) :
    ∃ d s', declaration room s = .error d s' ∧ s'.report = s.report ∧ g.Stopped d s' := by
  have hbefore : g.Before s :=
    ⟨g.front, List.suffix_refl _, by simp [hs, Stretch.tokens]⟩
  cases Leads.declaration room s hbefore with
  | stops d s' run stopped =>
    exact ⟨d, s'.noting s.report, run s.report, rfl, stopped.before, stopped.marks⟩
  | reads stmts s' run holds =>
    obtain ⟨d, ahead, hdepth, hnearest, hrange⟩ :=
      @exists_declaration room (s.noting []) (s'.noting []) stmts hreal rfl (run [])
    have hrest : (s'.noting []).ahead = g.rest := holds
    have htokens : d.tokens = g.tokens := by
      rw [hrest] at ahead
      exact List.append_cancel_right (ahead.symm.trans hs)
    refine absurd ?_ hfails
    have hmodule : (Module.another .nothing d).tokens = g.tokens := htokens
    rw [TokenStream.parseWithin_of_derivation file table (.another .nothing d) hmodule
      ⟨trivial, hnearest⟩ (Nat.max_le.2 ⟨Nat.zero_le _, hdepth⟩) ?_ rfl]
    rwa [htokens] at hrange

theorem pastSemicolon_append {left rest : List Token} {loc : Location} (last : Option Location)
    (h : ∀ t ∈ left, t.lexeme ≠ .mark .semicolon ∧ t.lexeme ≠ .mark .braceClose) :
    (pastSemicolon last (left ++ ⟨.mark .semicolon, loc⟩ :: rest)).2 = rest := by
  induction left generalizing last with
  | nil => rfl
  | cons t left ih =>
    obtain ⟨ht, hleft⟩ := List.forall_mem_cons.1 h
    rw [List.cons_append, pastSemicolon, if_neg ht.1, if_neg ht.2]
    exact ih _ hleft

/-- Wherever it stopped, the parser gives up the rest of the stretch, and nothing behind it. -/
theorem Stretch.Before.pastSemicolon {g : Stretch} (h : g.Before s) (last : Option Location) :
    (pastSemicolon last s.ahead).2 = g.rest := by
  obtain ⟨left, hleft, hs⟩ := h
  rw [hs]
  refine pastSemicolon_append last fun t ht => ?_
  have hsingle := g.single t (hleft.subset ht)
  constructor <;> intro hl <;> exact hsingle (hl ▸ by decide)

/-- A closing brace ends the search for a semicolon. -/
theorem pastSemicolon_of_brace {t : Token} {rest : List Token} {last : Option Location}
    (hs : s.ahead = t :: rest) (ht : t.lexeme = .mark .braceClose) :
    (pastSemicolon last s.ahead).2 = s.ahead := by
  rw [hs, pastSemicolon, ht, if_neg (by simp), if_pos rfl]

/-- A parser stops at the token ahead, and has taken nothing. -/
def Refuses (p : Parser α) (s : State) : Prop := ∃ d, p s = .error d s ∧ d.Marks [s.current]

namespace Refuses

theorem bind {p : Parser α} {f : α → Parser β} (h : Refuses p s) : Refuses (p >>= f) s := by
  obtain ⟨d, hrun, hmarks⟩ := h
  exact ⟨d, bind_of_error hrun, hmarks⟩

theorem fail {code : Code} (hcode : code.phase = "Syntax") (args : List (String × Argument)) :
    Refuses (Parser.fail code s.current.loc args : Parser α) s :=
  ⟨_, rfl, hcode, s.current, List.mem_singleton_self _, rfl⟩

theorem current {f : Token → Parser α} (h : Refuses (f s.current) s) :
    Refuses (Parser.current >>= f) s := h

theorem primary (expr : Parser Expr) (hs : s.current.lexeme = .mark .braceClose) :
    Refuses (primary expr) s := by
  refine current ?_
  rw [hs]
  exact fail rfl _

theorem binary {operand : Parser Expr} (h : Refuses operand s) : Refuses (binary operand) s :=
  h.bind.bind.bind.bind

theorem expressionOver {operand : Parser Expr} (h : Refuses operand s) :
    Refuses (expressionOver operand) s := by
  change Refuses (assignmentWithin operand s.ahead) s
  cases s.ahead with
  | nil => exact h.binary
  | cons t room => exact h.binary.bind

theorem unary (hs : s.current.lexeme = .mark .braceClose) : ∀ room : Nat, Refuses (unary room) s
  | 0 => fail rfl _
  | room + 1 => by
    refine current ?_
    rw [hs]
    exact (primary _ hs).bind

theorem statement (hs : s.current.lexeme = .mark .braceClose) :
    ∀ room : Nat, Refuses (statement room) s
  | 0 => fail rfl _
  | room + 1 => by
    have hexpr : Refuses (expression room) s := (unary hs room).expressionOver
    refine current ?_
    rw [hs]
    exact bind (current hexpr.bind)

/-- No declaration starts with a closing brace. -/
theorem declaration (room : Nat) (hs : s.current.lexeme = .mark .braceClose) :
    Refuses (declaration room) s := by
  refine current ?_
  rw [hs]
  refine current ?_
  rw [hs]
  exact (statement hs room).bind

end Refuses

theorem pastBraces_eq (last : Option Location) (ahead : List Token) :
    (pastBraces last ahead).2 = ahead.dropWhile fun t => t.lexeme = .mark .braceClose := by
  induction ahead generalizing last with
  | nil => rfl
  | cons t rest ih =>
    by_cases ht : t.lexeme = .mark .braceClose
    · rw [pastBraces, if_pos ht, List.dropWhile_cons_of_pos (by simpa using ht), ih]
    · rw [pastBraces, if_neg ht, List.dropWhile_cons_of_neg (by simpa using ht)]

end Parser

end Ember
