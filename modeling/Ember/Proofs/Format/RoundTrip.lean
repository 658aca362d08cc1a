import Ember.Proofs.Format.Spacing
import Ember.Proofs.Parser.Exact

namespace Ember

open Grammar Fragment
open Ember.Parser

namespace TokenStream

/-- A legible row is read as tokens of its lexemes, and nothing is reported. -/
theorem ofSource_renderAll (file : String) {fs : List Fragment} (h : Legible fs) :
    (ofSource file (Source.ofString (renderAll fs))).tokens.map (·.lexeme) = lexemes fs ∧
      (ofSource file (Source.ofString (renderAll fs))).report = [] := by
  obtain ⟨hlexemes, hsound⟩ := h.split_renderAll
  rw [tokens_ofSource, report_ofSource, Piece.lexemes_tokens, hlexemes]
  exact ⟨rfl, Piece.problems_eq_nil.2 hsound⟩

/-- What was accepted is the tree of a derivation, and can be printed. -/
theorem printable_of_clean {file : String} {source : Source} {table : SymbolTable}
    (hclean : (Program.parse file source table).report = []) :
    ∀ s ∈ (Program.parse file source table).program.body,
      s.Printable (Program.parse file source table).table.nameOf := by
  obtain ⟨m, htokens, helse, _, hrange, hbuild⟩ :=
    derivation_of_clean (real_start table) hclean
  have hwritten : Written m.tokens := by
    intro t ht
    rw [htokens] at ht
    exact ⟨readable_of_mem ht, hrange t ht⟩
  have hprintable := m.printable_build table (.refl _) hwritten helse
  rw [hbuild] at hprintable
  exact hprintable

/-- Tokens of a derivation are read as its tree, unless it nests too deep. -/
theorem parse_of_derivation {stream : TokenStream} (file : String) (table : SymbolTable)
    (m : Module) (htokens : m.tokens = stream.tokens) (helse : m.NearestElse)
    (hrange : ∀ t ∈ stream.tokens, t.InRange) (hlex : stream.report = []) :
    (∃ d ∈ (stream.parse file table).report, d.code = .nestingTooDeep) ∨
      stream.parse file table = ⟨⟨file, (m.build table).1⟩, (m.build table).2, []⟩ := by
  have hfit : Within (fun c => c = .nestingTooDeep) maxDepth m.depth m.tokens :=
    ⟨fun h => absurd rfl h, fun _ => by rwa [htokens]⟩
  rcases agrees_declarations_all (s := State.start stream table) m hfit helse htokens.symm with
    hrun | ⟨d, hd, hcode⟩
  · right
    rw [parse, parseWithin_of_ok hrun, hlex]
    rfl
  · exact .inl ⟨d, mem_report_of_diagnostics hd, hcode⟩

theorem file_parse (file : String) (stream : TokenStream) (table : SymbolTable) :
    (stream.parse file table).program.file = file := by
  obtain ⟨body, s, hrun⟩ := declarations_ok maxDepth (State.start stream table)
  rw [parse, parseWithin_of_ok hrun]

end TokenStream

/-- A program that is accepted is read back from its canonical form: either this nests too deep,
or it is accepted, and differs from the program only in places, in parentheses and in the table
that holds the names. -/
theorem Program.parse_format {file : String} {source : Source} {table : SymbolTable}
    (hclean : (Program.parse file source table).report = []) (table' : SymbolTable) :
    let p := Program.parse file source table
    let q := Program.parse file (Source.ofString (p.program.format p.table.nameOf)) table'
    (∃ d ∈ q.report, d.code = .nestingTooDeep) ∨
      q.report = [] ∧ q.program.sketch q.table.nameOf = p.program.sketch p.table.nameOf := by
  intro p q
  have hprintable := TokenStream.printable_of_clean hclean
  have hlegible := Stmt.legible_program hprintable
  obtain ⟨hlexemes, hlex⟩ := TokenStream.ofSource_renderAll file hlegible
  obtain ⟨m, htokens, hsketch, helse⟩ := Stmt.derives_program hprintable _ hlexemes
  have hrange := hlegible.inRange hlexemes
  rcases TokenStream.parse_of_derivation file table' m htokens helse hrange hlex with
    hdeep | hparse
  · exact .inl hdeep
  · right
    have hq : q = ⟨⟨file, (m.build table').1⟩, (m.build table').2, []⟩ := hparse
    have hfile : p.program.file = file := TokenStream.file_parse file _ table
    have hsame := (m.sketch_build table' (.refl _)).trans hsketch
    rw [hq]
    refine ⟨rfl, ?_⟩
    rw [Program.sketch, Program.sketch, hsame, hfile]

/-- The compound assignment of this program is printed with the parentheses that it needs, and
its body twice. -/
theorem Program.parse_format_doWhile :
    let p := Program.parse "m" (Source.ofString "do x -= a - 1; while (!f(x));") .empty
    let q := Program.parse "m" (Source.ofString (p.program.format p.table.nameOf)) .empty
    p.report = [] ∧ q.report = [] ∧
      q.program.sketch q.table.nameOf = p.program.sketch p.table.nameOf := by
  have hclean : (Program.parse "m" (Source.ofString "do x -= a - 1; while (!f(x));")
      .empty).report = [] := by
    decide +kernel
  refine ⟨hclean, ?_⟩
  rcases Program.parse_format hclean .empty with hdeep | hsame
  · exact absurd hdeep (by decide +kernel)
  · exact hsame

end Ember
