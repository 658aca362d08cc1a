import Ember.Proofs.Lexer.Spelling

namespace Ember

/-- A text in which each stray byte is the character that it counts as. -/
def Source.shown (text : Source) : Source := text.map fun g => .char g.toChar

theorem Source.ofString_append (a b : String) :
    Source.ofString (a ++ b) = Source.ofString a ++ Source.ofString b := by
  simp [Source.ofString]

theorem Source.ofString_toString (text : Source) :
    Source.ofString (Source.toString text) = text.shown := by
  simp [toString, ofString, shown, Function.comp_def]

theorem Source.toString_ofString (text : String) :
    Source.toString (Source.ofString text) = text := by
  have hchars : (text.toList.map Glyph.char).map Glyph.toChar = text.toList :=
    List.map_map.trans (List.map_id _)
  rw [toString, ofString, hchars, String.ofList_toList]

theorem Source.toString_shown (text : Source) : text.shown.toString = text.toString := by
  have hchars : text.shown.map Glyph.toChar = text.map Glyph.toChar := List.map_map
  rw [toString, toString, hchars]

namespace Piece

/-- A glyph that starts a number or a name starts no comment. -/
theorem toChar_ne_slash {g : Glyph} (h : isAsciiDigit g ∨ startsName g) : g.toChar ≠ '/' := by
  intro hg
  simp only [isAsciiDigit, startsName, hg] at h
  revert h
  decide +kernel

theorem isBlank_of_isAsciiDigit {g : Glyph} (h : isAsciiDigit g) :
    Text.isBlank g.toChar = false := by
  have hbounds : 48 ≤ g.toChar.toNat ∧ g.toChar.toNat ≤ 57 := by
    simpa [isAsciiDigit, Char.isDigit, UInt32.le_iff_toNat_le] using h
  have hspace : g.toChar ≠ ' ' := by
    intro hg
    rw [hg] at hbounds
    exact absurd hbounds (by decide)
  have hspace' : (g.toChar == ' ') = false := beq_eq_false_iff_ne.2 hspace
  simp only [Text.isBlank, hspace', Bool.false_or, Bool.or_eq_false_iff, Bool.and_eq_false_iff,
    beq_eq_false_iff_ne, decide_eq_false_iff_not]
  omega

theorem first_of_digits {g : Glyph} {tail : Source} (hg : isAsciiDigit g)
    (htail : ∀ b ∈ tail, isAsciiDigit b) :
    first g tail = (⟨.lexeme (.integer (Source.toString (g :: tail))), g :: tail⟩, []) := by
  have hblank := isBlank_of_isAsciiDigit hg
  have hslash := toChar_ne_slash (.inl hg)
  simp only [first, hblank, hslash, hg, List.takeWhile_eq_self_iff.2 htail,
    List.dropWhile_eq_nil_iff.2 htail, false_and, if_true, if_false, Bool.false_eq_true]

theorem first_of_name {g : Glyph} {tail : Source} (hblank : Text.isBlank g.toChar = false)
    (hdigit : isAsciiDigit g = false) (hg : startsName g) (htail : ∀ b ∈ tail, continuesName b) :
    first g tail = (⟨.lexeme (word (g :: tail)), g :: tail⟩, []) := by
  have hslash := toChar_ne_slash (.inr hg)
  simp only [first, hblank, hslash, hdigit, hg, List.takeWhile_eq_self_iff.2 htail,
    List.dropWhile_eq_nil_iff.2 htail, false_and, if_true, if_false, Bool.false_eq_true]

end Piece

namespace Lexeme

open Piece

theorem readable_of_first {l : Lexeme} {g : Glyph} {tail : Source} (hsource : l.source = g :: tail)
    (hfirst : first g tail = (⟨.lexeme l, g :: tail⟩, [])) : l.Readable := by
  rw [Readable, hsource, split_cons, hfirst, split_nil]

theorem readable_integer {g : Glyph} {tail : Source} (hg : isAsciiDigit g)
    (htail : ∀ b ∈ tail, isAsciiDigit b) :
    (integer (Source.toString (g :: tail))).Readable := by
  have hall : ∀ b ∈ Source.shown tail, isAsciiDigit b := List.forall_mem_map.2 htail
  have hfirst := first_of_digits (g := .char g.toChar) hg hall
  have hsame : Source.toString (.char g.toChar :: Source.shown tail) =
      Source.toString (g :: tail) := Source.toString_shown (g :: tail)
  rw [hsame] at hfirst
  exact readable_of_first (Source.ofString_toString (g :: tail)) hfirst

/-- A name that is no keyword is spelled by its text. -/
theorem readable_word {g : Glyph} {tail : Source} (hblank : Text.isBlank g.toChar = false)
    (hdigit : isAsciiDigit g = false) (hg : startsName g) (htail : ∀ b ∈ tail, continuesName b) :
    (word (g :: tail)).Readable := by
  cases hword : Keyword.ofSpelling? (Source.toString (g :: tail)) with
  | some k =>
    simp only [word, hword]
    exact readable_keyword k
  | none =>
    have hall : ∀ b ∈ Source.shown tail, continuesName b := List.forall_mem_map.2 htail
    have hfirst := first_of_name (g := .char g.toChar) hblank hdigit hg hall
    have hsame : Source.toString (.char g.toChar :: Source.shown tail) =
        Source.toString (g :: tail) := Source.toString_shown (g :: tail)
    simp only [word, hsame, hword] at hfirst ⊢
    exact readable_of_first (Source.ofString_toString (g :: tail)) hfirst

theorem readable_toString (n : Nat) : (integer (toString n)).Readable := by
  have hdigits : ∀ g ∈ Source.ofString (toString n), isAsciiDigit g := by
    have hchars : (toString n).toList = Nat.toDigits 10 n := Nat.toList_repr
    rw [Source.ofString, hchars]
    exact List.forall_mem_map.2 fun c hc => Nat.isDigit_of_mem_toDigits (by omega) (by omega) hc
  cases htext : Source.ofString (toString n) with
  | nil => exact absurd htext (by simp [Source.ofString])
  | cons g tail =>
    rw [htext] at hdigits
    obtain ⟨hg, htail⟩ := List.forall_mem_cons.1 hdigits
    have hreadable := readable_integer hg htail
    rwa [← htext, Source.toString_ofString] at hreadable

end Lexeme

namespace Piece

theorem readable_ofSymbol {g : Glyph} {rest : Source} {l : Lexeme}
    (h : (ofSymbol g rest).1.sort = .lexeme l) : l.Readable := by
  have hmark : ∃ m, l = .mark m := by
    unfold ofSymbol at h
    grind
  obtain ⟨m, rfl⟩ := hmark
  exact Lexeme.readable_mark m

theorem readable_first {g : Glyph} {rest : Source} {l : Lexeme}
    (h : (first g rest).1.sort = .lexeme l) : l.Readable := by
  unfold first at h
  by_cases hblank : Text.isBlank g.toChar
  · simp only [if_pos hblank] at h
    cases h
  simp only [if_neg hblank] at h
  by_cases hline : g.toChar = '/' ∧ begins '/' rest
  · simp only [if_pos hline] at h
    cases h
  simp only [if_neg hline] at h
  by_cases hopen : g.toChar = '/' ∧ begins '*' rest
  · simp only [if_pos hopen] at h
    split at h <;> cases h
  simp only [if_neg hopen] at h
  by_cases hdigit : isAsciiDigit g
  · simp only [if_pos hdigit] at h
    cases h
    exact Lexeme.readable_integer hdigit fun b hb => List.mem_takeWhile_imp hb
  simp only [if_neg hdigit] at h
  by_cases hname : startsName g
  · simp only [if_pos hname] at h
    cases h
    exact Lexeme.readable_word (Bool.eq_false_iff.2 hblank) (Bool.eq_false_iff.2 hdigit) hname
      fun b hb => List.mem_takeWhile_imp hb
  simp only [if_neg hname] at h
  exact readable_ofSymbol h

/-- Every lexeme of a text can be read on its own. -/
theorem readable_of_mem_split {source : Source} {piece : Piece} (hp : piece ∈ split source)
    {l : Lexeme} (h : piece.sort = .lexeme l) : l.Readable := by
  induction source using Piece.induction with
  | nil => cases hp
  | cons g rest ih =>
    rw [split_cons, List.mem_cons] at hp
    rcases hp with rfl | hp
    · exact readable_first h
    · exact ih hp

end Piece

theorem TokenStream.readable_of_mem {file : String} {source : Source} {t : Token}
    (h : t ∈ (TokenStream.ofSource file source).tokens) : t.lexeme.Readable := by
  simp only [TokenStream.ofSource, List.mem_filterMap] at h
  obtain ⟨⟨q, piece⟩, hmem, htoken⟩ := h
  unfold Piece.token? at htoken
  split at htoken
  · rename_i l hl
    cases htoken
    exact Piece.readable_of_mem_split (Position.mem_of_mem_place hmem) hl
  · cases htoken

end Ember
