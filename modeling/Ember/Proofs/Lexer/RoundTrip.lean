import Ember.Proofs.Lexer.Decoding
import Ember.Proofs.Lexer.Readable
import Ember.Proofs.Lexer.Stream

namespace Ember

namespace Source

/-- The bytes of characters are decoded to the same characters. -/
theorem ofBytes_bytes_ofString (text : String) :
    ofBytes (ofString text).bytes = ofString text := by
  suffices h : ∀ cs : List Char, ofBytes (bytes (cs.map Glyph.char)) = cs.map Glyph.char from
    h text.toList
  intro cs
  induction cs with
  | nil => rfl
  | cons c cs ih =>
    have hcons : bytes ((c :: cs).map Glyph.char) =
        String.utf8EncodeChar c ++ bytes (cs.map Glyph.char) := rfl
    rw [hcons, ofBytes_char, ih, List.map_cons]

end Source

namespace Piece

/-- Lexemes with a blank between each two. -/
def separated : List Lexeme → Source
  | [] => []
  | [l] => l.source
  | l :: rest => l.source ++ .char ' ' :: separated rest

/-- The blanks keep the lexemes apart, also those that would run together otherwise. -/
theorem split_separated {ls : List Lexeme} (h : ∀ l ∈ ls, l.Readable) :
    (split (separated ls)).filterMap lexeme? = ls ∧
      ∀ piece ∈ split (separated ls), piece.isSound := by
  fun_induction separated ls with
  | case1 => simp
  | case2 l =>
    have hl : split l.source = [⟨.lexeme l, l.source⟩] := h l List.mem_cons_self
    rw [hl]
    exact ⟨rfl, List.forall_mem_singleton.2 rfl⟩
  | case3 l rest _ ih =>
    obtain ⟨hl, hrest⟩ := List.forall_mem_cons.1 h
    obtain ⟨hlexemes, hsound⟩ := ih hrest
    rw [split_source_blank hl]
    constructor
    · exact congrArg (l :: ·) hlexemes
    · exact List.forall_mem_cons.2 ⟨rfl, List.forall_mem_cons.2 ⟨rfl, hsound⟩⟩

end Piece

namespace TokenStream

theorem ofString_render (tokens : List Token) :
    Source.ofString (render tokens) = Piece.separated (tokens.map (·.lexeme)) := by
  induction tokens with
  | nil => rfl
  | cons t rest ih =>
    cases rest with
    | nil => simp [render, Piece.separated, Lexeme.source]
    | cons u rest =>
      have hrender : render (t :: u :: rest) =
          t.lexeme.spelling ++ " " ++ render (u :: rest) := String.intercalate_cons_cons
      rw [hrender, Source.ofString_append, Source.ofString_append, ih, List.append_assoc]
      rfl

/-- The tokens of a text, errors or not, are spelled so that they are read back: a blank between
each two is enough, and nothing is reported of the spelling. -/
theorem ofBytes_render (file file' : String) (bytes : List UInt8) :
    let stream := ofSource file (Source.ofBytes bytes)
    let again := ofSource file' (Source.ofBytes (Source.ofString (render stream.tokens)).bytes)
    again.report = [] ∧ again.tokens.map (·.lexeme) = stream.tokens.map (·.lexeme) := by
  intro stream again
  have hreadable : ∀ l ∈ stream.tokens.map (·.lexeme), l.Readable :=
    List.forall_mem_map.2 fun t ht => readable_of_mem ht
  obtain ⟨hlexemes, hsound⟩ := Piece.split_separated hreadable
  have hsource : Source.ofBytes (Source.ofString (render stream.tokens)).bytes =
      Piece.separated (stream.tokens.map (·.lexeme)) := by
    rw [Source.ofBytes_bytes_ofString, ofString_render]
  have hagain : again = ofSource file' (Piece.separated (stream.tokens.map (·.lexeme))) :=
    congrArg (ofSource file') hsource
  constructor
  · rw [hagain, report_ofSource]
    exact Piece.problems_eq_nil.2 hsound
  · rw [hagain, tokens_ofSource, Piece.lexemes_tokens]
    exact hlexemes

end TokenStream

end Ember
