import Ember.Proofs.Lexer.Layout
import Ember.Proofs.Outline.Address
import Ember.Proofs.Outline.Label
import Ember.Proofs.Outline.Reading
import Ember.Proofs.Sound.Program

namespace Ember

open Piece

/-- A name that stands in a source text is one word. -/
theorem TokenStream.isSolid_of_mem {file : String} {source : Source} {name : String}
    {loc : Location} (h : ⟨.identifier name, loc⟩ ∈ (ofSource file source).tokens) :
    IsSolid name := by
  have hreadable := readable_of_mem (t := ⟨.identifier name, loc⟩) h
  intro c hc
  have hmem : Glyph.char c ∈ (Lexeme.identifier name).source := List.mem_map_of_mem hc
  cases hsource : (Lexeme.identifier name).source with
  | nil => simp [hsource] at hmem
  | cons g tail =>
    rw [Lexeme.Readable, hsource, split_cons] at hreadable
    have hfirst : (first g tail).1 = ⟨.lexeme (.identifier name), g :: tail⟩ :=
      (List.cons.inj hreadable).1
    have hspelled := (spelled_first (congrArg Piece.sort hfirst)).1
    rw [hfirst] at hspelled
    have hcontinues := hspelled.continuesName (fun _ hmark => by cases hmark) (hsource ▸ hmem)
    have hdivider : c ∉ Lexeme.dividers := fun hdivider => by
      have hparts := Lexeme.partsFrom_divider (.identifier name) hdivider
      simp [Lexeme.partsFrom, hcontinues] at hparts
    exact ⟨fun hblank => hdivider (hblank ▸ by decide), fun hbreak => hdivider (hbreak ▸ by decide)⟩

theorem Spelled.isSolid {file : String} {source : Source} {name : String} {h : Head}
    {loc : Location} (hspelled : Spelled (TokenStream.ofSource file source).tokens name h loc) :
    IsSolid name := by
  cases hspelled with
  | var hmem | varDecl hmem => exact TokenStream.isSolid_of_mem hmem
  | param _ hpair | function hpair =>
    exact TokenStream.isSolid_of_mem (hpair.subset (List.mem_cons_of_mem _ List.mem_cons_self))

/-- A node in the program that names what is spelled in the source can be read back. -/
theorem Head.Sound.legible {file : String} {source : Source} {table table' : SymbolTable}
    {h : Head} {loc : Location} (hkeeps : table.Keeps table') (hkind : h.kind ≠ .program)
    (hs : h.Sound (TokenStream.ofSource file source).tokens table loc) : h.Legible table' where
  named id hid := by
    obtain ⟨symbol, hget, hspelled⟩ := hs.named id hid
    obtain ⟨symbol', hget', hname⟩ := hkeeps id symbol hget
    exact ⟨symbol', hget', hname ▸ hspelled.isSolid⟩
  native := hs.native
  file f hf := absurd (congrArg Head.kind hf) hkind

theorem Head.legible_literal {table : SymbolTable} {l : Literal} (hl : l.IsNative) :
    (Head.literal l).Legible table :=
  ⟨nofun, fun _ h => Head.literal.inj h ▸ hl, nofun⟩

namespace Program

variable {t t' : SymbolTable} {p p' : Program}

theorem OfSource.legible_body (h : p.OfSource t) :
    Outline.AllIn (fun h _ => h.Legible t) (Stmt.outlines p.body) := by
  induction h with
  | parse file source hkeeps =>
    refine Stmt.allIn_within (fun h loc hkind hs => ?_) _
      (Stmt.allIn_outlines.2 (sound_parse file source _).2)
    exact hs.legible hkeeps hkind
  | fold _ ih => exact Stmt.allIn_foldAll (fun _ => Head.legible_literal) _ ih

/-- Every node of a program from a source text can be read back, if the name of the file is in one
line. -/
theorem OfSource.legible (h : p.OfSource t) (hfile : '\n' ∉ p.file.toList) :
    ∀ e ∈ p.entries, e.head.Legible t := by
  have hroot : (Head.program p.file).Legible t :=
    ⟨nofun, nofun, fun _ hhead => Head.program.inj hhead ▸ hfile⟩
  have hall : p.outline.All fun h _ => h.Legible t := ⟨hroot, h.legible_body⟩
  exact Outline.All.entriesFrom _ hall _ _ _

/-- Programs with the same rows are the same. -/
theorem alike_of_rows {r : Int → Int → Prop}
    (h : List.Forall₂ (Outline.RowAlike r) (p.entries.map fun e => (e.depth, e.head))
      (p'.entries.map fun e => (e.depth, e.head))) :
    p.file = p'.file ∧ Stmt.AlikeAll r Anywhere p.body p'.body := by
  have hrows : List.Forall₂ (Outline.RowAlike r) (p.outline.rows 0 ++ [])
      (p'.outline.rows 0 ++ []) := by
    rw [List.append_nil, List.append_nil, ← Outline.map_entriesFrom (-1) 0 0,
      ← Outline.map_entriesFrom (-1) 0 0]
    exact h
  obtain ⟨halike, -⟩ := Outline.alike_of_rows (Outline.endsAbove_nil 1) (Outline.endsAbove_nil 1)
    p.outline p'.outline hrows
  match halike with
  | .node hhead hbody =>
    exact ⟨Head.program.inj (hhead.eq_of_plain rfl), Stmt.alikeAll_of_outlines _ _ hbody⟩

/-- Flattening numbers the nodes of any program in pre-order. The dump of a program from a source
text, folded or not, tells the program up to its places and to the numbers of its names, whatever
other names are in the table. -/
theorem dump_lossless :
    (∀ p : Program, Outline.Numbers p.entries p.outline) ∧
      ∀ (t t' : SymbolTable) (p p' : Program), p.OfSource t → p'.OfSource t' →
        '\n' ∉ p.file.toList → '\n' ∉ p'.file.toList → p.dump t.nameOf = p'.dump t'.nameOf →
          p.file = p'.file ∧ Stmt.AlikeAll (t.SameName t') Anywhere p.body p'.body := by
  refine ⟨fun p => Outline.numbers_entries p.outline, fun t t' p p' hp hp' hfile hfile' hdump => ?_⟩
  exact alike_of_rows (Entry.rowsAlike_of_lines (hp.legible hfile) (hp'.legible hfile') hdump)

/-- A folded program, and one that is written as the other is folded and read after another name.
-/
theorem dump_lossless_folded :
    let parsed := Program.parse "a file" (Source.ofString "if (y) x = (1 + 2) * y;") .empty
    let parsed' := Program.parse "a file" (Source.ofString "if(y)x=3*y ;")
      (SymbolTable.empty.add "z" .empty).2
    let p := parsed.program.fold
    let p' := parsed'.program
    p.dump parsed.table.nameOf = p'.dump parsed'.table.nameOf ∧
      p.entries.map (·.head.id?) ≠ p'.entries.map (·.head.id?) ∧ p.file = p'.file ∧
      Stmt.AlikeAll (parsed.table.SameName parsed'.table) Anywhere p.body p'.body := by
  intro parsed parsed' p p'
  obtain ⟨hdump, hids, hfile, hfile'⟩ : p.dump parsed.table.nameOf = p'.dump parsed'.table.nameOf ∧
      p.entries.map (·.head.id?) ≠ p'.entries.map (·.head.id?) ∧ '\n' ∉ p.file.toList ∧
      '\n' ∉ p'.file.toList := by
    decide +kernel
  refine ⟨hdump, hids, ?_⟩
  exact dump_lossless.2 parsed.table parsed'.table p p' (.fold (.parse _ _ (.refl _)))
    (.parse _ _ (.refl _)) hfile hfile' hdump

end Program

end Ember
