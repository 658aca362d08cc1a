import Ember.Proofs.Lexer.Problems
import Ember.Proofs.Parser.Exact
import Ember.Proofs.Parser.Repetition
import Ember.Proofs.Parser.Thrift

namespace Ember

namespace Parser

/-- The loops of a parser that may nest `room` levels deep, each by its step. -/
inductive IsLoop (room : Nat) : {α : Type} → (α → Parser (Option α)) → Prop where
  | declarations : IsLoop room (declarationStep room)
  | entries : IsLoop room (entryStep (expression room) (statement room))
  | params : IsLoop room (commaStep param)
  | declarators (type : Datatype) : IsLoop room (commaStep (declarator type (expression room)))
  | arguments : IsLoop room (commaStep (expression room))
  | calls : IsLoop room (callStep (expression room))
  | operators (precedence : Nat) :
    IsLoop room (chainStep precedence (climb (unary room) (4 - precedence)))

theorem IsLoop.productive {room : Nat} {α : Type} {step : α → Parser (Option α)}
    (h : IsLoop room step) : Productive step := by
  have hexpr : Orderly (expression room) := .expression room
  cases h with
  | declarations => exact productive_declarationStep room
  | entries => exact productive_entryStep hexpr (.statement room) (Hungry.statement room)
  | params => exact productive_commaStep .param
  | declarators type => exact productive_commaStep (.declarator type hexpr)
  | arguments => exact productive_commaStep hexpr
  | calls => exact productive_callStep hexpr
  | operators precedence => exact productive_chainStep precedence ((Orderly.unary room).climb _)

/-- Only the end of the file ends the declarations. -/
theorem current_of_declarationStep {room : Nat} {body : List Stmt} {s s' : State}
    (h : declarationStep room body s = .ok none s') :
    s = s' ∧ s.current.lexeme = .endOfFile := by
  by_cases hend : s.current.lexeme = .endOfFile
  · rw [declarationStep_of_end body hend] at h
    cases h
    exact ⟨rfl, hend⟩
  · cases hrun : declaration room s with
    | ok stmts s₁ =>
      rw [declarationStep_of_ok body hend hrun] at h
      cases h
    | error d s₁ =>
      rw [declarationStep_of_error body hend hrun] at h
      cases h

/-- The declarations go on until no token is left. -/
theorem ahead_of_declarations {room : Nat} {body : List Stmt} {s s' : State} (hreal : s.Real)
    (h : declarations room s = .ok body s') : s'.ahead = [] := by
  have hrepeats := (productive_declarationStep room).repeats [] s
  rw [← declarations_eq, h] at hrepeats
  obtain ⟨s₀, hstep⟩ := hrepeats.ends
  obtain ⟨rfl, hend⟩ := current_of_declarationStep hstep
  have hsuffix := (Thrifty.declarations room s).1.ahead
  rw [h] at hsuffix
  exact State.ahead_eq_nil (fun t ht => hreal t (hsuffix.subset ht)) hend

end Parser

open Ember.Parser

/-- What the parser notes of a text: syntax errors at its tokens, the end of the file among them,
and no more of them than tokens. -/
theorem TokenStream.noted {room : Nat} {stream : TokenStream} {table : SymbolTable}
    {body : List Stmt} {s : State}
    (h : declarations room (State.start stream table) = .ok body s) :
    (∀ d ∈ s.report, d.code.phase = "Syntax" ∧ ∃ t ∈ stream.allTokens, d.loc = t.loc) ∧
      s.report.length + s.ahead.length ≤ stream.tokens.length := by
  have hpays := (Thrifty.declarations room (State.start stream table)).1
  rw [h] at hpays
  obtain ⟨new, hreport, hat, hcost⟩ := hpays.noted
  have hreport : s.report = new := hreport
  have hplaces : (State.start stream table).places = stream.allTokens.map (·.loc) := by
    simp [State.places, State.start, TokenStream.allTokens]
  refine ⟨fun d hd => ?_, ?_⟩
  · obtain ⟨hphase, hloc⟩ := hat d (hreport ▸ hd)
    rw [hplaces] at hloc
    obtain ⟨t, ht, hloc⟩ := List.mem_map.1 hloc
    exact ⟨hphase, t, ht, hloc.symm⟩
  · rcases hcost with rfl | hcost
    · rw [hreport, List.length_nil, Nat.zero_add]
      exact hpays.ahead.length_le
    · rw [hreport]
      exact hcost

theorem TokenStream.phase_of_mem_report {file : String} {source : Source} {d : Diagnostic}
    (h : d ∈ (TokenStream.ofSource file source).report) : d.code.phase = "Lexical" :=
  ((TokenStream.layout_ofSource file source).problem h).1

/-- Whatever the bytes of a file are, they are read to the end and parsing ends: no bound cuts off a
row of assignments, and every loop of the parser comes to an end by its own steps, that over the
declarations when all tokens are taken. At most as many syntax errors are noted as there are
tokens. -/
theorem Program.parse_terminates (file : String) (bytes : List UInt8) (table : SymbolTable) :
    let source := Source.ofBytes bytes
    let stream := TokenStream.ofSource file source
    let parsed := Program.parse file source table
    (Piece.split source).flatMap Piece.text = source ∧
    (∀ room : Nat, expression room = binary (unary room) >>= assignmentTail (expression room)) ∧
    (∀ (room : Nat) {α : Type} (step : α → Parser (Option α)), IsLoop room step →
      ∀ (a : α) (s : State), Repeats step a s (iterate step a s)) ∧
    ∃ body s, Repeats (declarationStep maxDepth) [] (State.start stream table) (.ok body s) ∧
      s.ahead = [] ∧
      parsed = ⟨⟨file, body⟩, s.table, Report.sorted (stream.report ++ s.report)⟩ ∧
      s.report.length ≤ stream.tokens.length ∧
      (parsed.report.filter (·.code.phase = "Syntax")).length = s.report.length := by
  intro source stream parsed
  refine ⟨Piece.flatMap_split source, expression_eq,
    fun room α step hstep a s => hstep.productive.repeats a s, ?_⟩
  obtain ⟨body, s, hrun⟩ := declarations_ok maxDepth (State.start stream table)
  obtain ⟨hmarks, hcost⟩ := TokenStream.noted hrun
  have hparsed : parsed = ⟨⟨file, body⟩, s.table, Report.sorted (stream.report ++ s.report)⟩ :=
    TokenStream.parseWithin_of_ok hrun
  have hrepeats := (productive_declarationStep maxDepth).repeats [] (State.start stream table)
  rw [← declarations_eq, hrun] at hrepeats
  refine ⟨body, s, hrepeats, ahead_of_declarations (TokenStream.real_start table) hrun, hparsed,
    Nat.le_trans (Nat.le_add_right _ _) hcost, ?_⟩
  have hlexical : stream.report.filter (·.code.phase = "Syntax") = [] := by
    refine List.filter_eq_nil_iff.2 fun d hd => ?_
    simp [TokenStream.phase_of_mem_report hd]
  have hsyntax : s.report.filter (·.code.phase = "Syntax") = s.report :=
    List.filter_eq_self.2 fun d hd => by simp [(hmarks d hd).1]
  rw [hparsed, ((Report.perm_sorted _).filter _).length_eq, List.filter_append, hlexical, hsyntax,
    List.nil_append]

end Ember
