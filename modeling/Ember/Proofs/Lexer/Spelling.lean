import Ember.Proofs.Lexer.Split
import Mathlib.Data.List.TakeWhile

namespace Ember

namespace Lexeme

/-- The lexeme as a text of its own. -/
def source (l : Lexeme) : Source := Source.ofString l.spelling

/-- A lexeme that a source text can hold: its spelling is read as the lexeme. -/
def Readable (l : Lexeme) : Prop := Piece.split l.source = [⟨.lexeme l, l.source⟩]

instance (l : Lexeme) : Decidable l.Readable := inferInstanceAs (Decidable (_ = _))

/-- The glyph is no part of the lexeme when it follows it directly. -/
def partsFrom (l : Lexeme) (g : Glyph) : Bool :=
  match l with
  | endOfFile => true
  | identifier _ | keyword _ => !Piece.continuesName g
  | integer _ => !Piece.isAsciiDigit g
  | mark m => !(m.withEqual?.isSome && g.toChar == '=') &&
      !(m == .slash && (g.toChar == '/' || g.toChar == '*'))

/-- The lexeme ends where the text begins. -/
def EndsBefore (l : Lexeme) (text : Source) : Prop := ∀ g ∈ text.head?, l.partsFrom g

theorem endsBefore_nil (l : Lexeme) : l.EndsBefore [] := by simp [EndsBefore]

theorem endsBefore_cons {l : Lexeme} {g : Glyph} (h : l.partsFrom g) (rest : Source) :
    l.EndsBefore (g :: rest) := by
  simpa [EndsBefore] using h

/-- White space and punctuation: no lexeme goes on with these characters. -/
def dividers : List Char := [' ', '\n', '(', ')', '\x7b', '\x7d', ',', ':', ';']

theorem partsFrom_divider (l : Lexeme) {c : Char} (hc : c ∈ dividers) :
    l.partsFrom (.char c) := by
  have hall : dividers.all (fun c => !Piece.continuesName (.char c) &&
      !Piece.isAsciiDigit (.char c) && c != '=' && c != '/' && c != '*') := by
    decide +kernel
  have hother := List.all_eq_true.1 hall c hc
  simp only [Bool.and_eq_true, bne_iff_ne] at hother
  obtain ⟨⟨⟨⟨hname, hdigit⟩, hequal⟩, hslash⟩, hstar⟩ := hother
  cases l with
  | endOfFile => rfl
  | identifier | keyword => exact hname
  | integer => exact hdigit
  | mark m => simp [partsFrom, Glyph.toChar, hequal, hslash, hstar]

theorem readable_keyword (k : Keyword) : (keyword k).Readable := by
  cases k <;> decide +kernel

theorem readable_mark (m : Mark) : (mark m).Readable := by
  cases m <;> decide +kernel

end Lexeme

namespace Piece

variable {p : Glyph → Bool}

theorem takeWhile_eq_nil {text : Source} (h : ∀ g ∈ text.head?, p g = false) :
    text.takeWhile p = [] ∧ text.dropWhile p = text := by
  cases text with
  | nil => exact ⟨rfl, rfl⟩
  | cons g rest =>
    have hg := h g rfl
    simp [hg]

/-- A run of glyphs that reaches to the end of the text ends there also when more follows. -/
theorem takeWhile_append_of_dropWhile {text : Source} (h : text.dropWhile p = []) {more : Source}
    (hmore : ∀ g ∈ more.head?, p g = false) :
    (text ++ more).takeWhile p = text ∧ (text ++ more).dropWhile p = more := by
  have hall : ∀ g ∈ text, p g = true := List.dropWhile_eq_nil_iff.1 h
  obtain ⟨htake, hdrop⟩ := takeWhile_eq_nil hmore
  rw [List.takeWhile_append_of_pos hall, List.dropWhile_append_of_pos hall, htake, hdrop,
    List.append_nil]
  exact ⟨rfl, rfl⟩

theorem partsFrom_word (text : Source) (g : Glyph) :
    (word text).partsFrom g = !continuesName g := by
  simp only [word]
  split <;> rfl

theorem begins_append {g : Glyph} {tail more : Source} {l : Lexeme}
    (h : first g tail = (⟨.lexeme l, g :: tail⟩, [])) (hmore : l.EndsBefore more)
    (hg : g.toChar = '/') (c : Char) (hc : c = '/' ∨ c = '*') :
    begins c (tail ++ more) = begins c tail := by
  cases tail with
  | cons b rest => rfl
  | nil =>
    have hslash : first g [] = (⟨.lexeme (.mark .slash), [g]⟩, []) := by
      have hdigit : isAsciiDigit g = false := by simp [isAsciiDigit, hg]
      have hname : startsName g = false := by
        simp only [startsName, hg]
        decide +kernel
      have hblank : Text.isBlank '/' = false := by decide
      simp [first, ofSymbol, hg, hdigit, hname, hblank, begins, Mark.ofChar?]
    rw [hslash] at h
    cases h
    cases more with
    | nil => rfl
    | cons b rest =>
      have hb := hmore b rfl
      rcases hc with rfl | rfl <;> simp_all [Lexeme.partsFrom, begins]

theorem ofSymbol_append {g : Glyph} {tail more : Source} {l : Lexeme}
    (h : ofSymbol g tail = (⟨.lexeme l, g :: tail⟩, [])) (hmore : l.EndsBefore more) :
    ofSymbol g (tail ++ more) = (⟨.lexeme l, g :: tail⟩, more) := by
  unfold ofSymbol at h ⊢
  by_cases hunknown : g.toChar = '&' ∨ g.toChar = '|'
  · simp only [if_pos hunknown] at h
    cases h
  simp only [if_neg hunknown] at h ⊢
  cases hm : Mark.ofChar? g.toChar with
  | none =>
    simp only [hm] at h
    cases h
  | some m =>
    simp only [hm] at h ⊢
    cases hlonger : m.withEqual? with
    | none =>
      simp only [hlonger] at h ⊢
      cases h
      rfl
    | some longer =>
      simp only [hlonger] at h ⊢
      cases tail with
      | nil =>
        cases h
        cases more with
        | nil => rfl
        | cons e rest =>
          have he := hmore e rfl
          have hne : e.toChar ≠ '=' := by
            rintro heq
            simp [Lexeme.partsFrom, hlonger, heq] at he
          simp only [List.nil_append, if_neg hne]
      | cons e rest =>
        simp only [List.cons_append] at h ⊢
        by_cases heq : e.toChar = '='
        · simp only [if_pos heq] at h ⊢
          cases h
          rfl
        · simp only [if_neg heq] at h
          cases h

/-- A lexeme that ends the text is followed by nothing that changes it. -/
theorem first_append_of_endsBefore {g : Glyph} {tail more : Source} {l : Lexeme}
    (h : first g tail = (⟨.lexeme l, g :: tail⟩, [])) (hmore : l.EndsBefore more) :
    first g (tail ++ more) = (⟨.lexeme l, g :: tail⟩, more) := by
  have hbegins := begins_append h hmore
  unfold first at h ⊢
  by_cases hblank : Text.isBlank g.toChar
  · simp only [if_pos hblank] at h
    cases h
  simp only [if_neg hblank] at h ⊢
  by_cases hline : g.toChar = '/' ∧ begins '/' tail
  · simp only [if_pos hline] at h
    cases h
  have hline' : ¬(g.toChar = '/' ∧ begins '/' (tail ++ more)) := by
    rintro ⟨hg, hb⟩
    exact hline ⟨hg, by rwa [hbegins hg _ (.inl rfl)] at hb⟩
  simp only [if_neg hline, if_neg hline'] at h ⊢
  by_cases hopen : g.toChar = '/' ∧ begins '*' tail
  · simp only [if_pos hopen] at h
    split at h <;> cases h
  have hopen' : ¬(g.toChar = '/' ∧ begins '*' (tail ++ more)) := by
    rintro ⟨hg, hb⟩
    exact hopen ⟨hg, by rwa [hbegins hg _ (.inr rfl)] at hb⟩
  simp only [if_neg hopen, if_neg hopen'] at h ⊢
  by_cases hdigit : isAsciiDigit g
  · simp only [if_pos hdigit, Prod.mk.injEq, mk.injEq, Sort.lexeme.injEq, List.cons.injEq,
      true_and] at h ⊢
    obtain ⟨⟨rfl, htake⟩, hdrop⟩ := h
    obtain ⟨htake', hdrop'⟩ := takeWhile_append_of_dropWhile hdrop
      fun b hb => by simpa [Lexeme.partsFrom] using hmore b hb
    simp only [htake, htake', hdrop', and_self]
  simp only [if_neg hdigit] at h ⊢
  by_cases hname : startsName g
  · simp only [if_pos hname, Prod.mk.injEq, mk.injEq, Sort.lexeme.injEq, List.cons.injEq,
      true_and] at h ⊢
    obtain ⟨⟨rfl, htake⟩, hdrop⟩ := h
    obtain ⟨htake', hdrop'⟩ := takeWhile_append_of_dropWhile hdrop
      fun b hb => by
        have hb := hmore b hb
        rwa [partsFrom_word, Bool.not_eq_true'] at hb
    simp only [htake, htake', hdrop', and_self]
  simp only [if_neg hname] at h ⊢
  exact ofSymbol_append h hmore

theorem split_blank {g : Glyph} (hg : Text.isBlank g.toChar) (rest : Source) :
    split (g :: rest) = ⟨.blank, [g]⟩ :: split rest := by
  rw [split_cons, first, if_pos hg]

/-- A lexeme is read where it stands in a longer text. -/
theorem split_source_append {l : Lexeme} (hl : l.Readable) {more : Source}
    (hmore : l.EndsBefore more) :
    split (l.source ++ more) = ⟨.lexeme l, l.source⟩ :: split more := by
  unfold Lexeme.Readable at hl
  cases hsource : l.source with
  | nil => rw [hsource] at hl; cases hl
  | cons g tail =>
    rw [hsource, split_cons] at hl
    obtain ⟨hfirst, hrest⟩ := List.cons.inj hl
    have hcut := text_first g tail
    rw [hfirst] at hcut
    have hnil : (first g tail).2 = [] := by simpa using hcut
    have happend := first_append_of_endsBefore (Prod.ext hfirst hnil) hmore
    rw [List.cons_append, split_cons, happend]

end Piece

end Ember
