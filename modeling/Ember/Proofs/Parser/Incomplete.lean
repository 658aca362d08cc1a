import Ember.Proofs.Lexer.Stream
import Ember.Proofs.Parser.Exact
import Ember.Proofs.Parser.Limit

namespace Ember

open Grammar Ember.Parser
open Glyph (newline)

theorem Lexeme.readable_of_isFiller {l : Lexeme} (h : l.isFiller) : l.Readable := by
  cases l with
  | identifier name =>
    have hname : name = "x" := by simpa [isFiller] using h
    subst hname
    decide +kernel
  | keyword k => exact readable_keyword k
  | mark m => exact readable_mark m
  | endOfFile | integer => cases h

theorem Token.inRange_of_isFiller {t : Token} (h : t.lexeme.isFiller) : t.InRange := by
  intro digits hdigits
  rw [hdigits] at h
  cases h

theorem Report.isIncomplete_iff {r : Report} :
    r.isIncomplete ↔ r ≠ [] ∧ ∀ d ∈ r, d.isIncomplete := by
  unfold Report.isIncomplete
  cases r <;> simp

namespace TokenStream

variable {file : String} {stream : TokenStream} {table : SymbolTable}

/-- Reading the tokens takes no more levels of nesting than given. A parser that has them at
most stops with a diagnostic where it needs one more. -/
def NestsWithin (depth : Nat) (file : String) (stream : TokenStream) (table : SymbolTable) :
    Prop :=
  ∀ d ∈ (stream.parseWithin depth file table).report, d.code ≠ .nestingTooDeep

instance (depth : Nat) (file : String) (stream : TokenStream) (table : SymbolTable) :
    Decidable (stream.NestsWithin depth file table) :=
  inferInstanceAs (Decidable (∀ d ∈ _, _))

/-- A level that is not needed changes nothing. -/
theorem NestsWithin.declarations_succ {depth : Nat} (h : stream.NestsWithin depth file table) :
    declarations (depth + 1) (State.start stream table) =
      declarations depth (State.start stream table) := by
  rcases (Deepens.declarations depth).same (State.start stream table) with ⟨d, hd, hcode⟩ | hsame
  · exact absurd hcode (h d (mem_report_of_diagnostics hd))
  · exact hsame

theorem NestsWithin.parseWithin_succ {depth : Nat} (h : stream.NestsWithin depth file table) :
    stream.parseWithin (depth + 1) file table = stream.parseWithin depth file table := by
  have hrun := h.declarations_succ
  simp only [State.start] at hrun
  simp only [parseWithin, hrun]

theorem NestsWithin.succ {depth : Nat} (h : stream.NestsWithin depth file table) :
    stream.NestsWithin (depth + 1) file table := by
  unfold NestsWithin
  rwa [h.parseWithin_succ]

theorem mem_report {room : Nat} {d : Diagnostic} :
    d ∈ (stream.parseWithin room file table).report ↔
      d ∈ stream.report ∨ d ∈ diagnostics (declarations room (State.start stream table)) := by
  obtain ⟨body, s, hrun⟩ := declarations_ok room (State.start stream table)
  rw [parseWithin_of_ok hrun, hrun, Report.mem_sorted, List.mem_append]
  rfl

theorem report_of_clean {room : Nat} (h : (stream.parseWithin room file table).report = []) :
    stream.report = [] := by
  refine List.eq_nil_iff_forall_not_mem.2 fun d hd => ?_
  have hmem : d ∈ (stream.parseWithin room file table).report := mem_report.2 (.inl hd)
  rw [h] at hmem
  cases hmem

/-- A derivation within the limits is read without a diagnostic. -/
theorem clean_of_derivation {room : Nat} (m : Module) (htokens : m.tokens = stream.tokens)
    (hdepth : m.depth ≤ room) (hrange : ∀ t ∈ stream.tokens, t.InRange) (helse : m.NearestElse)
    (hlex : stream.report = []) : (stream.parseWithin room file table).report = [] := by
  rw [parseWithin_of_derivation file table m htokens helse hdepth hrange hlex]

/-- What is incomplete has a completion: some lexemes behind its tokens, with which it is a
program of one more level. -/
theorem exists_derivation_of_incomplete {room : Nat} (hreal : (State.start stream table).Real)
    (hdeep : stream.NestsWithin room file table)
    (hincomplete : ∀ d ∈ (stream.parseWithin room file table).report, d.isIncomplete) :
    ∃ completion : List Lexeme, (∀ l ∈ completion, l.isFiller) ∧
      (∀ t ∈ stream.tokens, t.InRange) ∧
      ∀ us : List Token, us.map (·.lexeme) = completion →
        ∃ m : Module, m.tokens = stream.tokens ++ us ∧ m.depth ≤ room + 1 ∧ m.NearestElse := by
  cases verdict room hreal with
  | accepted m body table' ahead build depth nearest inRange run =>
    refine ⟨[], by simp, inRange, fun us hus => ?_⟩
    rw [List.map_eq_nil_iff] at hus
    subst hus
    exact ⟨m, ahead.trans (List.append_nil _).symm, by omega, nearest⟩
  | cut body s' completion run found noted inRange fillers completes =>
    exact ⟨completion, fillers, inRange, completes⟩
  | deep reports =>
    obtain ⟨d, hd, hcode⟩ := reports
    exact absurd hcode (hdeep d (mem_report_of_diagnostics hd))
  | broken reports =>
    obtain ⟨d, hd, hcode⟩ := reports [] stream.finish
    have hself : (State.start stream table).extend [] stream.finish = State.start stream table :=
      State.extend_nil _
    rw [hself] at hd
    have hd' := hincomplete d (mem_report_of_diagnostics hd)
    simp [hcode] at hd'

/-- What some tokens behind it mend is incomplete: the parser reports nothing else. -/
theorem incomplete_of_extension {room : Nat} {stream' : TokenStream} {us : List Token}
    (hreal : (State.start stream table).Real) (hdeep : stream.NestsWithin room file table)
    (htokens : stream'.tokens = stream.tokens ++ us)
    (hclean : (stream'.parseWithin room file table).report = []) :
    ∀ d ∈ diagnostics (declarations room (State.start stream table)), d.isIncomplete := by
  intro d hd
  cases verdict room hreal with
  | accepted m body table' ahead build depth nearest inRange run =>
    rw [run] at hd
    cases hd
  | cut body s' completion run found noted inRange fillers completes =>
    rw [run] at hd
    rcases noted d hd with hd | hd
    · cases hd
    · exact hd
  | deep reports =>
    obtain ⟨e, he, hcode⟩ := reports
    exact absurd hcode (hdeep e (mem_report_of_diagnostics he))
  | broken reports =>
    obtain ⟨e, he, _⟩ := reports us stream'.finish
    have hextend : (State.start stream table).extend us stream'.finish =
        State.start stream' table := by
      simp [State.extend, State.start, htokens]
    rw [hextend] at he
    have hmem : e ∈ (stream'.parseWithin room file table).report := mem_report_of_diagnostics he
    rw [hclean] at hmem
    cases hmem

end TokenStream

/-- The report on a text whose nesting leaves a level to spare is incomplete exactly if there
are problems that more lines can mend. -/
theorem Program.incomplete_iff {file : String} {source : Source} {table : SymbolTable}
    (hdepth : (TokenStream.ofSource file source).NestsWithin 255 file table) :
    (Program.parse file source table).report.isIncomplete ↔
      (Program.parse file source table).report ≠ [] ∧
        ∃ more, (Program.parse file (source ++ newline :: more) table).report = [] := by
  have hreal : (State.start (TokenStream.ofSource file source) table).Real :=
    TokenStream.real_start table
  have hsame := hdepth.parseWithin_succ
  rw [Report.isIncomplete_iff]
  refine and_congr_right fun _ => ?_
  change (∀ d ∈ (TokenStream.parseWithin 256 file _ table).report, _) ↔ _
  constructor
  · intro hincomplete
    have hlex : ∀ d ∈ (TokenStream.ofSource file source).report, d.isIncomplete :=
      fun d hd => hincomplete d (TokenStream.mem_report.2 (.inl hd))
    rw [hsame] at hincomplete
    obtain ⟨completion, hfillers, hrange, hcompletes⟩ :=
      TokenStream.exists_derivation_of_incomplete hreal hdepth hincomplete
    obtain ⟨more, us, hus, htokens, hclean⟩ := TokenStream.exists_completion hlex
      fun l hl => Lexeme.readable_of_isFiller (hfillers l hl)
    obtain ⟨m, hm, hlevels, helse⟩ := hcompletes us hus
    refine ⟨more, TokenStream.clean_of_derivation m (hm.trans htokens.symm) hlevels ?_ helse hclean⟩
    intro t ht
    rw [htokens, List.mem_append] at ht
    rcases ht with ht | ht
    · exact hrange t ht
    · refine Token.inRange_of_isFiller (hfillers _ ?_)
      rw [← hus]
      exact List.mem_map_of_mem ht
  · rintro ⟨more, hclean⟩ d hd
    obtain ⟨⟨us, htokens⟩, hlex⟩ := TokenStream.extension file source more
    rcases TokenStream.mem_report.1 hd with hd | hd
    · exact hlex (TokenStream.report_of_clean hclean) d hd
    · exact TokenStream.incomplete_of_extension hreal hdepth.succ htokens hclean d hd

/-- A block that ends inside a comment, and a text that no lines can mend. -/
theorem Program.incomplete_iff_block :
    (∃ more, (Program.parse "m"
      (Source.ofString "if (a) \x7b f(1, /* b /* c */" ++ newline :: more) .empty).report = []) ∧
    ¬∃ more, (Program.parse "m" (Source.ofString "if (a \x7d ;" ++ newline :: more) .empty).report =
      [] := by
  constructor
  · have hdepth : (TokenStream.ofSource "m"
        (Source.ofString "if (a) \x7b f(1, /* b /* c */")).NestsWithin 255 "m" .empty := by
      decide +kernel
    exact ((Program.incomplete_iff hdepth).1 (by decide +kernel)).2
  · have hdepth : (TokenStream.ofSource "m"
        (Source.ofString "if (a \x7d ;")).NestsWithin 255 "m" .empty := by
      decide +kernel
    intro hmore
    have hincomplete := (Program.incomplete_iff hdepth).2 ⟨by decide +kernel, hmore⟩
    revert hincomplete
    decide +kernel

end Ember
