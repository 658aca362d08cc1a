import Ember.Proofs.Format.RoundTrip

namespace Ember

open Grammar Fragment

namespace Program

variable {file : String} {source : Source} {table : SymbolTable}

/-- The canonical form of an accepted program has a derivation, of which the tree is the program
with the printer's parentheses. -/
theorem exists_derivation_format
    (hclean : (Program.parse file source table).report = []) (file' : String) :
    let p := Program.parse file source table
    let again := TokenStream.ofSource file' (Source.ofString (p.program.format p.table.nameOf))
    again.report = [] ∧ (∀ t ∈ again.tokens, t.InRange) ∧
      again.tokens.map (·.lexeme) =
        lexemes (Stmt.programFragments p.table.nameOf p.program.body) ∧
      ∃ m : Module, m.tokens = again.tokens ∧ m.NearestElse ∧
        m.Gives p.table.nameOf (Stmt.bracketedAll p.program.body) := by
  intro p again
  have hprintable := TokenStream.printable_of_clean hclean
  have hlegible := Stmt.legible_program hprintable
  obtain ⟨hlexemes, hlex⟩ := TokenStream.ofSource_renderAll file' hlegible
  obtain ⟨m, htokens, hgives, helse⟩ := Stmt.derives_bracketed hprintable _ hlexemes
  exact ⟨hlex, hlegible.inRange hlexemes, hlexemes, m, htokens, helse, hgives⟩

/-- What is built of a derivation of the canonical form is printed as the canonical form. -/
theorem format_of_gives {p : Program} {name : Int → String} {m : Module}
    (hgives : m.Gives name (Stmt.bracketedAll p.body)) (file : String) (table : SymbolTable) :
    Program.format (m.build table).2.nameOf ⟨file, (m.build table).1⟩ = p.format name := by
  have hsame := (hgives table (.refl _)).programFragments_eq fun _ _ hid => hid
  rw [Program.format, Program.format, hsame, Stmt.programFragments_bracketed]

/-- Formatting is idempotent: the canonical form of an accepted program, where it is accepted
itself, is its own canonical form, whatever table it is read into. -/
theorem format_format (hclean : (Program.parse file source table).report = []) (file' : String)
    (table' : SymbolTable) :
    let p := Program.parse file source table
    let text := p.program.format p.table.nameOf
    let q := Program.parse file' (Source.ofString text) table'
    q.report = [] → q.program.format q.table.nameOf = text := by
  intro p text q hagain
  obtain ⟨hlex, hrange, -, m, htokens, helse, hgives⟩ := exists_derivation_format hclean file'
  rcases TokenStream.parse_of_derivation file' table' m htokens helse hrange hlex with
    ⟨d, hd, -⟩ | hparse
  · have hd' : d ∈ q.report := hd
    rw [hagain] at hd'
    cases hd'
  · have hq : q = ⟨⟨file', (m.build table').1⟩, (m.build table').2, []⟩ := hparse
    rw [hq]
    exact format_of_gives hgives file' table'

/-- A loop that is taken apart, a compound assignment inside another, and a branch on a line of
its own. -/
theorem format_format_loop :
    let p := Program.parse "m" (Source.ofString "for (; a; x -= y *= b) if (a) f(-c);") .empty
    let text := p.program.format p.table.nameOf
    let q := Program.parse "m" (Source.ofString text) .empty
    p.report = [] ∧ q.report = [] ∧ q.program.format q.table.nameOf = text := by
  have hclean : (Program.parse "m" (Source.ofString "for (; a; x -= y *= b) if (a) f(-c);")
      .empty).report = [] := by
    decide +kernel
  exact ⟨hclean, by decide +kernel, format_format hclean "m" .empty (by decide +kernel)⟩

end Program

end Ember
