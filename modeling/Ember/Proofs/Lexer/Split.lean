import Ember.Token
import Ember.Token.Piece.Lemmas

namespace Ember

namespace Piece

/-- What follows the first piece is shorter than the text. -/
theorem length_first (g : Glyph) (rest : Source) : (first g rest).2.length ≤ rest.length := by
  have hcut := congrArg List.length (text_first g rest)
  have hpos := List.length_pos_iff.2 (text_first_ne_nil g rest)
  simp only [List.length_append, List.length_cons] at hcut
  omega

/-- As long as there is room for the text, the bound does not show. -/
theorem splitWithin_eq : ∀ (room room' source : Source), source.length ≤ room.length →
    source.length ≤ room'.length → splitWithin room source = splitWithin room' source
  | [], [], _, _, _ => rfl
  | [], _ :: _, [], _, _ => rfl
  | _ :: _, [], [], _, _ => rfl
  | _ :: _, _ :: _, [], _, _ => rfl
  | _ :: room, _ :: room', g :: rest, hroom, hroom' => by
    have hle := length_first g rest
    simp only [List.length_cons] at hroom hroom'
    rw [splitWithin_cons, splitWithin_cons,
      splitWithin_eq room room' (first g rest).2 (by omega) (by omega)]

@[simp] theorem split_nil : split [] = [] := rfl

theorem split_cons (g : Glyph) (rest : Source) :
    split (g :: rest) = (first g rest).1 :: split (first g rest).2 := by
  have hle := length_first g rest
  rw [split, splitWithin_cons,
    splitWithin_eq rest (first g rest).2 (first g rest).2 hle (Nat.le_refl _)]
  rfl

/-- Pieces are cut off one after the other. -/
theorem induction {motive : Source → Prop} (nil : motive [])
    (cons : ∀ g rest, motive (first g rest).2 → motive (g :: rest)) (text : Source) :
    motive text := by
  suffices h : ∀ (n : Nat) (text : Source), text.length < n → motive text from
    h _ text (Nat.lt_succ_self _)
  intro n
  induction n with
  | zero => intro text h; omega
  | succ n ih =>
    intro text hn
    cases text with
    | nil => exact nil
    | cons g rest =>
      have hle := length_first g rest
      simp only [List.length_cons] at hn
      exact cons g rest (ih _ (by omega))

theorem sort_first_ne (g : Glyph) (rest : Source) :
    (first g rest).1.sort ≠ .lexeme .endOfFile := by
  unfold first ofSymbol word
  grind

/-- The end of the file is no part of a text. -/
theorem sort_ne_of_mem_split {source : Source} {p : Piece} (hp : p ∈ split source) :
    p.sort ≠ .lexeme .endOfFile := by
  induction source using Piece.induction with
  | nil => cases hp
  | cons g rest ih =>
    rw [split_cons, List.mem_cons] at hp
    rcases hp with rfl | hp
    · exact sort_first_ne g rest
    · exact ih hp

end Piece

theorem Position.mem_of_mem_place {p q : Position} {pieces : List Piece} {piece : Piece}
    (h : (q, piece) ∈ p.place pieces) : piece ∈ pieces := by
  induction pieces generalizing p with
  | nil => cases h
  | cons first rest ih =>
    rw [Position.place, List.mem_cons] at h
    rcases h with h | h
    · cases h
      exact List.mem_cons_self
    · exact List.mem_cons_of_mem _ (ih h)

/-- Every token of a text is a lexeme of it. -/
theorem TokenStream.lexeme_ne_of_mem {file : String} {source : Source} {t : Token}
    (h : t ∈ (TokenStream.ofSource file source).tokens) : t.lexeme ≠ .endOfFile := by
  simp only [TokenStream.ofSource, List.mem_filterMap] at h
  obtain ⟨⟨q, piece⟩, hmem, htoken⟩ := h
  have hsort := Piece.sort_ne_of_mem_split (Position.mem_of_mem_place hmem)
  unfold Piece.token? at htoken
  split at htoken
  · rename_i l hl
    cases htoken
    rintro rfl
    exact hsort hl
  · cases htoken

end Ember
