import Ember.Token.Piece

namespace Ember

namespace Piece

/-- What is cut off as a comment, and what follows it, are the text. -/
theorem append_of_closing? {outer : Nat} {source body after : Source}
    (h : closing? outer source = some (body, after)) : body ++ after = source := by
  fun_induction closing? outer source generalizing body after <;>
    simp_all [Option.map_eq_some_iff] <;> grind

/-- A mark or a character that starts nothing, and what follows it, are the text. -/
theorem text_ofSymbol (g : Glyph) (rest : Source) :
    (ofSymbol g rest).1.text ++ (ofSymbol g rest).2 = g :: rest := by
  unfold ofSymbol
  split
  · rfl
  · split
    · rfl
    · split
      · split <;> rfl
      · rfl

/-- The first piece and what follows it are the text. -/
theorem text_first (g : Glyph) (rest : Source) :
    (first g rest).1.text ++ (first g rest).2 = g :: rest := by
  unfold first
  split
  · rfl
  split
  · simp [List.takeWhile_append_dropWhile]
  split
  · rename_i h
    split
    · rename_i body after hc
      have := append_of_closing? hc
      cases rest with
      | nil => simp [begins] at h
      | cons b rest => simp_all
    · simp
  split
  · simp [List.takeWhile_append_dropWhile]
  split
  · simp [List.takeWhile_append_dropWhile]
  · exact text_ofSymbol g rest

/-- Every piece takes something of the text. -/
theorem text_first_ne_nil (g : Glyph) (rest : Source) : (first g rest).1.text ≠ [] := by
  unfold first ofSymbol
  grind

/-- With room left, the first piece is cut off and the rest is cut after it. -/
theorem splitWithin_cons (g b : Glyph) (room rest : Source) :
    splitWithin (b :: room) (g :: rest) =
      (first g rest).1 :: splitWithin room (first g rest).2 :=
  Eq.refl ((first g rest).1 :: splitWithin room (first g rest).2)

/-- Pieces are cut as long as there is room for the text. -/
theorem flatMap_splitWithin : ∀ (room source : Source), source.length ≤ room.length →
    (splitWithin room source).flatMap text = source
  | [], source, h => by
    have : source = [] := by simpa using h
    subst this
    rfl
  | _ :: room, [], _ => rfl
  | _ :: room, g :: rest, h => by
    have hcut := text_first g rest
    have hpos := List.length_pos_iff.2 (text_first_ne_nil g rest)
    have hlen := congrArg List.length hcut
    simp only [List.length_append, List.length_cons] at hlen h
    have ih := flatMap_splitWithin room (first g rest).2 (by omega)
    rw [splitWithin_cons, List.flatMap_cons, ih, hcut]

/-- The pieces of a text follow each other without a gap. -/
theorem flatMap_split (source : Source) : (split source).flatMap text = source :=
  flatMap_splitWithin source source (Nat.le_refl _)

end Piece

end Ember
