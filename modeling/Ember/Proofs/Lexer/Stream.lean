import Ember.Proofs.Lexer.Extension
import Ember.Proofs.Lexer.Spelling

namespace Ember

theorem Position.place_append (p : Position) (a b : List Piece) :
    p.place (a ++ b) = p.place a ++ (p.after (a.flatMap Piece.text)).place b := by
  induction a generalizing p with
  | nil => rfl
  | cons piece rest ih =>
    simp only [List.cons_append, Position.place, ih, List.flatMap_cons, Position.after_append]

namespace Piece

/-- The tokens of pieces of which the first stands at `p`. -/
def tokens (file : String) (p : Position) (pieces : List Piece) : List Token :=
  (p.place pieces).filterMap fun (q, piece) => piece.token? (q.inFile file)

/-- What is reported of pieces of which the first stands at `p`. -/
def problems (file : String) (p : Position) (pieces : List Piece) : Report :=
  (p.place pieces).filterMap fun (q, piece) => piece.diagnostic? (q.inFile file)

/-- The lexeme that a piece is. -/
def lexeme? (p : Piece) : Option Lexeme :=
  match p.sort with
  | .lexeme l => some l
  | _ => none

variable {file : String} {p : Position}

theorem tokens_append (file : String) (p : Position) (a b : List Piece) :
    tokens file p (a ++ b) = tokens file p a ++ tokens file (p.after (a.flatMap text)) b := by
  simp only [tokens, Position.place_append, List.filterMap_append]

theorem problems_append (file : String) (p : Position) (a b : List Piece) :
    problems file p (a ++ b) =
      problems file p a ++ problems file (p.after (a.flatMap text)) b := by
  simp only [problems, Position.place_append, List.filterMap_append]

theorem tokens_cons (piece : Piece) (rest : List Piece) :
    tokens file p (piece :: rest) =
      (piece.token? (p.inFile file)).toList ++ tokens file (p.after piece.text) rest := by
  simp only [tokens, Position.place, List.filterMap_cons]
  cases piece.token? (p.inFile file) <;> rfl

theorem problems_cons (piece : Piece) (rest : List Piece) :
    problems file p (piece :: rest) =
      (piece.diagnostic? (p.inFile file)).toList ++
        problems file (p.after piece.text) rest := by
  simp only [problems, Position.place, List.filterMap_cons]
  cases piece.diagnostic? (p.inFile file) <;> rfl

theorem lexemes_tokens (file : String) (p : Position) (pieces : List Piece) :
    (tokens file p pieces).map (·.lexeme) = pieces.filterMap lexeme? := by
  induction pieces generalizing p with
  | nil => rfl
  | cons piece rest ih =>
    rw [tokens_cons, List.map_append, ih, List.filterMap_cons]
    unfold token? lexeme?
    cases piece.sort <;> rfl

/-- A piece about which nothing is reported. -/
def isSound (piece : Piece) : Bool :=
  match piece.sort with
  | .unexpected | .unknownSymbol | .openComment => false
  | _ => true

theorem problems_eq_nil {pieces : List Piece} :
    problems file p pieces = [] ↔ ∀ piece ∈ pieces, piece.isSound := by
  induction pieces generalizing p with
  | nil => simp [problems, Position.place]
  | cons piece rest ih =>
    rw [problems_cons, List.append_eq_nil_iff, ih, List.forall_mem_cons]
    refine and_congr_left fun _ => ?_
    unfold diagnostic? isSound
    cases piece.sort <;> simp

/-- Only a comment that is not closed is mended by more text. -/
theorem problems_incomplete {pieces : List Piece}
    (hclosed : ∀ piece ∈ pieces, piece.sort ≠ .openComment)
    (h : ∀ d ∈ problems file p pieces, d.isIncomplete) : problems file p pieces = [] := by
  refine List.eq_nil_iff_forall_not_mem.2 fun d hd => ?_
  have hd' := h d hd
  simp only [problems, List.mem_filterMap] at hd
  obtain ⟨⟨q, piece⟩, hmem, hdiag⟩ := hd
  have hsort := hclosed piece (Position.mem_of_mem_place hmem)
  unfold diagnostic? at hdiag
  split at hdiag <;> cases hdiag <;> first | exact absurd hd' (by decide) | contradiction

/-- A lexeme before a blank is read as it is. -/
theorem split_source_blank {l : Lexeme} (hl : l.Readable) (more : Source) :
    split (l.source ++ .char ' ' :: more) =
      ⟨.lexeme l, l.source⟩ :: ⟨.blank, [.char ' ']⟩ :: split more := by
  have hends : l.EndsBefore (.char ' ' :: more) :=
    Lexeme.endsBefore_cons (l.partsFrom_divider (by decide)) _
  rw [split_source_append hl hends, split_blank rfl]

/-- Lexemes with a blank after each. -/
def spaced (ls : List Lexeme) : Source := ls.flatMap fun l => l.source ++ [.char ' ']

theorem split_spaced {ls : List Lexeme} (h : ∀ l ∈ ls, l.Readable) :
    (split (spaced ls)).filterMap lexeme? = ls ∧ ∀ piece ∈ split (spaced ls), piece.isSound := by
  induction ls with
  | nil => simp [spaced]
  | cons l ls ih =>
    obtain ⟨hl, hls⟩ := List.forall_mem_cons.1 h
    obtain ⟨hlexemes, hsound⟩ := ih hls
    have hcons : spaced (l :: ls) = l.source ++ .char ' ' :: spaced ls := by simp [spaced]
    rw [hcons, split_source_blank hl]
    constructor
    · exact congrArg (l :: ·) hlexemes
    · exact List.forall_mem_cons.2 ⟨rfl, List.forall_mem_cons.2 ⟨rfl, hsound⟩⟩

end Piece

namespace TokenStream

open Piece
open Glyph (newline)

variable {file : String} {source : Source}

theorem tokens_ofSource (file : String) (source : Source) :
    (ofSource file source).tokens = Piece.tokens file .start (split source) := rfl

theorem report_ofSource (file : String) (source : Source) :
    (ofSource file source).report = problems file .start (split source) := rfl

/-- The tokens of a text, and what is reported of it, apart from a comment at its end. -/
theorem ofSource_of_open_tail (file : String) {pieces : List Piece} {tail : Source}
    (hsplit : split source = pieces ++ split tail) (htail : IsOpenTail tail) :
    (ofSource file source).tokens = Piece.tokens file .start pieces ∧
      ∃ r, (ofSource file source).report = problems file .start pieces ++ r ∧
        ∀ d ∈ r, d.isIncomplete := by
  rw [tokens_ofSource, report_ofSource, hsplit, tokens_append, problems_append]
  rcases htail.split_eq with hnil | hopen
  · rw [hnil]
    exact ⟨List.append_nil _, [], rfl, by simp⟩
  · rw [hopen]
    refine ⟨List.append_nil _, _, rfl, fun d hd => ?_⟩
    cases List.mem_singleton.1 hd
    rfl

/-- More lines leave the tokens of a text alone, and mend nothing but a comment that is not
closed. -/
theorem extension (file : String) (source more : Source) :
    (∃ us, (ofSource file (source ++ newline :: more)).tokens =
      (ofSource file source).tokens ++ us) ∧
    ((ofSource file (source ++ newline :: more)).report = [] →
      ∀ d ∈ (ofSource file source).report, d.isIncomplete) := by
  obtain ⟨pieces, tail, hsplit, hmore, hclosed, htail⟩ := exists_open_tail source
  obtain ⟨htokens, r, hreport, hr⟩ := ofSource_of_open_tail file hsplit htail
  rw [htokens, hreport, tokens_ofSource, report_ofSource, hmore, tokens_append, problems_append]
  refine ⟨⟨_, rfl⟩, fun hclean d hd => ?_⟩
  rw [(List.append_eq_nil_iff.1 hclean).1, List.nil_append] at hd
  exact hr d hd

/-- A text of which nothing is reported but that it ends in a comment can be continued by any
lexemes. -/
theorem exists_completion (h : ∀ d ∈ (ofSource file source).report, d.isIncomplete)
    {ls : List Lexeme} (hls : ∀ l ∈ ls, l.Readable) :
    ∃ more us, us.map (·.lexeme) = ls ∧
      (ofSource file (source ++ newline :: more)).tokens = (ofSource file source).tokens ++ us ∧
      (ofSource file (source ++ newline :: more)).report = [] := by
  obtain ⟨pieces, tail, hsplit, hmore, hclosed, htail⟩ := exists_open_tail source
  obtain ⟨htokens, r, hreport, _⟩ := ofSource_of_open_tail file hsplit htail
  obtain ⟨hlexemes, hsound⟩ := split_spaced hls
  obtain ⟨closing, piece, hsort, hline⟩ := htail.exists_closing
  have hpieces : problems file .start pieces = [] := by
    refine problems_incomplete hclosed fun d hd => h d ?_
    rw [hreport]
    exact List.mem_append_left _ hd
  have hpiece : piece.lexeme? = none ∧ piece.isSound := by
    unfold lexeme? isSound
    rcases hsort with hsort | hsort <;> simp [hsort]
  refine ⟨closing ++ spaced ls,
    Piece.tokens file (Position.start.after (pieces.flatMap text)) (piece :: split (spaced ls)),
    ?_, ?_, ?_⟩
  · rw [lexemes_tokens, List.filterMap_cons_none hpiece.1, hlexemes]
  · rw [htokens, tokens_ofSource, hmore, hline, tokens_append]
  · rw [report_ofSource, hmore, hline, problems_append, hpieces, List.nil_append]
    exact problems_eq_nil.2 (List.forall_mem_cons.2 ⟨hpiece.2, hsound⟩)

end TokenStream

end Ember
