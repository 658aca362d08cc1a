import Ember.Proofs.Grammar.DanglingElse
import Ember.Proofs.Lexer.Split
import Ember.Proofs.Parser.Acceptance.Program
import Ember.Proofs.Parser.Reading.Program

namespace Ember

open Grammar

theorem Report.mem_sorted {r : Report} {d : Diagnostic} : d ∈ r.sorted ↔ d ∈ r :=
  (Report.perm_sorted r).mem_iff

theorem Report.sorted_eq_nil {r : Report} : r.sorted = [] ↔ r = [] := by
  rw [← List.length_eq_zero_iff, ← List.length_eq_zero_iff, (Report.perm_sorted r).length_eq]

namespace Parser

/-- The state in which the tokens of a text are parsed. -/
def State.start (stream : TokenStream) (table : SymbolTable) : State :=
  ⟨stream.tokens, stream.finish, none, table, []⟩

/-- The declarations are never left with a diagnostic: each is noted. -/
theorem declarations_ok (room : Nat) (s : State) :
    ∃ body s', declarations room s = .ok body s' := by
  have hstep : ∀ body s, ∃ b s', declarationStep room body s = .ok b s' := by
    intro body s
    by_cases hend : s.current.lexeme = .endOfFile
    · exact ⟨none, s, declarationStep_of_end body hend⟩
    · cases hs : declaration room s with
      | ok stmts s' => exact ⟨_, _, declarationStep_of_ok body hend hs⟩
      | error d s' => exact ⟨_, _, declarationStep_of_error body hend hs⟩
  suffices h : ∀ (tokens : List Token) (body : List Stmt) (s : State),
      ∃ body' s', iterateWithin (declarationStep room) tokens body s = .ok body' s' from
    h s.ahead [] s
  intro tokens
  induction tokens with
  | nil => exact fun body s => ⟨body, s, rfl⟩
  | cons t rest ih =>
    intro body s
    obtain ⟨b, s', hb⟩ := hstep body s
    rw [iterateWithin, bind_of_ok hb]
    cases b with
    | none => exact ⟨body, s', rfl⟩
    | some body' => exact ih body' s'

end Parser

open Ember.Parser

theorem TokenStream.real_start {file : String} {source : Source} (table : SymbolTable) :
    (State.start (TokenStream.ofSource file source) table).Real :=
  fun _ ht => TokenStream.lexeme_ne_of_mem ht

theorem TokenStream.parseWithin_of_ok {room : Nat} {file : String} {stream : TokenStream}
    {table : SymbolTable} {body : List Stmt} {s : State}
    (h : declarations room (State.start stream table) = .ok body s) :
    stream.parseWithin room file table =
      ⟨⟨file, body⟩, s.table, Report.sorted (stream.report ++ s.report)⟩ := by
  rw [State.start] at h
  rw [TokenStream.parseWithin, h]

/-- What a run of the parser reports stands in the report of the program. -/
theorem TokenStream.mem_report_of_diagnostics {room : Nat} {file : String} {stream : TokenStream}
    {table : SymbolTable} {d : Diagnostic}
    (h : d ∈ diagnostics (declarations room (State.start stream table))) :
    d ∈ (stream.parseWithin room file table).report := by
  obtain ⟨body, s, hrun⟩ := declarations_ok room (State.start stream table)
  rw [hrun] at h
  rw [TokenStream.parseWithin_of_ok hrun]
  exact Report.mem_sorted.2 (List.mem_append_right _ h)

/-- A program without a diagnostic is read as a derivation of its tokens. -/
theorem TokenStream.derivation_of_clean {room : Nat} {file : String} {stream : TokenStream}
    {table : SymbolTable} (hreal : (State.start stream table).Real)
    (hclean : (stream.parseWithin room file table).report = []) :
    ∃ m : Module, m.tokens = stream.tokens ∧ m.NearestElse ∧ m.depth ≤ room ∧
      (∀ t ∈ stream.tokens, t.InRange) ∧
      m.build table = ((stream.parseWithin room file table).program.body,
        (stream.parseWithin room file table).table) := by
  have hnone : ∀ d, d ∉ (stream.parseWithin room file table).report := by
    intro d
    rw [hclean]
    exact List.not_mem_nil
  cases verdict room hreal with
  | accepted m body table' ahead build depth nearest inRange run =>
    refine ⟨m, ahead, nearest, depth, inRange, ?_⟩
    rw [TokenStream.parseWithin_of_ok run]
    exact build
  | cut body s' completion run found noted inRange fillers completes =>
    obtain ⟨d, hd, _⟩ := found
    refine absurd (TokenStream.mem_report_of_diagnostics (d := d) ?_) (hnone d)
    rw [run]
    exact hd
  | deep reports =>
    obtain ⟨d, hd, _⟩ := reports
    exact absurd (TokenStream.mem_report_of_diagnostics hd) (hnone d)
  | broken reports =>
    obtain ⟨d, hd, _⟩ := reports [] stream.finish
    have hself : (State.start stream table).extend [] stream.finish = State.start stream table :=
      State.extend_nil _
    rw [hself] at hd
    exact absurd (TokenStream.mem_report_of_diagnostics hd) (hnone d)

/-- The tokens of a derivation within the limits are read as its tree. -/
theorem TokenStream.parseWithin_of_derivation {room : Nat} {stream : TokenStream} (file : String)
    (table : SymbolTable) (m : Module) (htokens : m.tokens = stream.tokens)
    (helse : m.NearestElse) (hdepth : m.depth ≤ room) (hrange : ∀ t ∈ stream.tokens, t.InRange)
    (hlex : stream.report = []) :
    stream.parseWithin room file table = ⟨⟨file, (m.build table).1⟩, (m.build table).2, []⟩ := by
  have hfit : Within (fun _ => False) room m.depth m.tokens :=
    ⟨fun _ => hdepth, fun _ => by rwa [htokens]⟩
  -- No diagnostic is excused, so that the run is the one of the derivation.
  rcases agrees_declarations_all (s := State.start stream table) m hfit helse htokens.symm with
    hrun | ⟨_, _, hfalse⟩
  · rw [TokenStream.parseWithin_of_ok hrun, hlex]
    rfl
  · exact hfalse.elim

/-- The parser accepts exactly the grammar. Without a diagnostic a program is the tree of a
derivation of its tokens in which every `else` belongs to the nearest open conditional; and
where the tokens have any derivation, the only diagnostics that keep the program from being
accepted are an overflow of the nesting or of an integer. -/
theorem Program.parse_exact (file : String) (source : Source) (table : SymbolTable)
    (hlex : (TokenStream.ofSource file source).report = []) :
    ((Program.parse file source table).report = [] →
      ∃ m : Module, m.tokens = (TokenStream.ofSource file source).tokens ∧ m.NearestElse ∧
        m.build table = ((Program.parse file source table).program.body,
          (Program.parse file source table).table)) ∧
    ((∃ m : Module, m.tokens = (TokenStream.ofSource file source).tokens) →
      (Program.parse file source table).report = [] ∨
        ∃ d ∈ (Program.parse file source table).report,
          d.code = .nestingTooDeep ∨ d.code = .integerOutOfRange) := by
  constructor
  · intro hclean
    obtain ⟨m, htokens, helse, _, _, hbuild⟩ :=
      TokenStream.derivation_of_clean (TokenStream.real_start table) hclean
    exact ⟨m, htokens, helse, hbuild⟩
  · rintro ⟨m, htokens⟩
    obtain ⟨m', htokens', helse⟩ := m.exists_nearestElse
    have hfit : Within (fun c => c = .nestingTooDeep ∨ c = .integerOutOfRange) maxDepth m'.depth
        m'.tokens := ⟨fun h => absurd (.inl rfl) h, fun h => absurd (.inr rfl) h⟩
    rcases agrees_declarations_all (s := State.start (TokenStream.ofSource file source) table) m'
      hfit helse (htokens'.trans htokens).symm with
      hrun | ⟨d, hd, hcode⟩
    · left
      change (TokenStream.parseWithin maxDepth file _ table).report = []
      rw [TokenStream.parseWithin_of_ok hrun, hlex]
      rfl
    · exact .inr ⟨d, TokenStream.mem_report_of_diagnostics hd, hcode⟩

/-- The `else` of this program belongs to the inner conditional. -/
theorem Program.parse_exact_dangling :
    (TokenStream.ofSource "m" (Source.ofString "if(a)if(b)c;else d;")).report = [] ∧
      ∃ m : Module,
        m.tokens = (TokenStream.ofSource "m" (Source.ofString "if(a)if(b)c;else d;")).tokens ∧
        m.NearestElse ∧
        m.build .empty =
          ((Program.parse "m" (Source.ofString "if(a)if(b)c;else d;") .empty).program.body,
            (Program.parse "m" (Source.ofString "if(a)if(b)c;else d;") .empty).table) :=
  ⟨by decide +kernel,
    (Program.parse_exact "m" (Source.ofString "if(a)if(b)c;else d;") .empty (by decide +kernel)).1
      (by decide +kernel)⟩

end Ember
