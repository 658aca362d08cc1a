import Ember.Proofs.Lexer.Split

namespace Ember

/-- The end of a line. -/
def Glyph.newline : Glyph := .char '\n'

namespace Piece

open Glyph (newline)

variable {p : Glyph → Bool} {stop : Glyph}

theorem takeWhile_append_stop (h : p stop = false) (text more : Source) :
    (text ++ stop :: more).takeWhile p = text.takeWhile p := by
  induction text with
  | nil => simp [h]
  | cons g rest ih =>
    simp only [List.cons_append, List.takeWhile_cons, ih]

theorem dropWhile_append_stop (h : p stop = false) (text more : Source) :
    (text ++ stop :: more).dropWhile p = text.dropWhile p ++ stop :: more := by
  induction text with
  | nil => simp [h]
  | cons g rest ih =>
    simp only [List.cons_append, List.dropWhile_cons, ih]
    split <;> rfl

/-- A comment that is closed stays so, whatever follows it. -/
theorem closing?_append {outer : Nat} {text body after : Source}
    (h : closing? outer text = some (body, after)) (more : Source) :
    closing? outer (text ++ more) = some (body, after ++ more) := by
  fun_induction closing? outer text generalizing body after with
  | case1 outer a b rest hopen ih =>
    obtain ⟨⟨body', after'⟩, hc, heq⟩ := Option.map_eq_some_iff.1 h
    cases heq
    simp only [List.cons_append, closing?, if_pos hopen, ih hc, Option.map_some]
  | case2 a b rest hopen hclose =>
    cases h
    simp only [List.cons_append, closing?, if_neg hopen, if_pos hclose]
  | case3 a b rest hopen hclose outer ih =>
    obtain ⟨⟨body', after'⟩, hc, heq⟩ := Option.map_eq_some_iff.1 h
    cases heq
    simp only [List.cons_append, closing?, if_neg hopen, if_pos hclose, ih hc, Option.map_some]
  | case4 outer a b rest hopen hclose ih =>
    obtain ⟨⟨body', after'⟩, hc, heq⟩ := Option.map_eq_some_iff.1 h
    cases heq
    have htail := ih hc
    simp only [List.cons_append] at htail
    simp only [List.cons_append, closing?, if_neg hopen, if_neg hclose, htail, Option.map_some]
  | case5 => cases h

/-- Enough marks to close so many comments. -/
def closers : Nat → Source
  | 0 => []
  | n + 1 => .char '*' :: .char '/' :: closers n

theorem closing?_closers (outer : Nat) (more : Source) :
    closing? outer (closers (outer + 1) ++ more) = some (closers (outer + 1), more) := by
  induction outer with
  | zero => rfl
  | succ outer ih =>
    have hstar : closing? (outer + 1) (closers (outer + 2) ++ more) =
        (closing? outer (closers (outer + 1) ++ more)).map fun cut =>
          (Glyph.char '*' :: Glyph.char '/' :: cut.1, cut.2) := rfl
    rw [hstar, ih]
    rfl

/-- A comment that is not closed is closed on another line. -/
theorem exists_closing? {outer : Nat} {text : Source} (h : closing? outer text = none) :
    ∃ n, ∀ more, closing? outer (text ++ newline :: (closers n ++ more)) =
      some (text ++ newline :: closers n, more) := by
  have hline : ∀ outer more, closing? outer (newline :: (closers (outer + 1) ++ more)) =
      some (newline :: closers (outer + 1), more) := by
    intro outer more
    have hskip : closing? outer (newline :: (closers (outer + 1) ++ more)) =
        (closing? outer (closers (outer + 1) ++ more)).map fun cut =>
          (newline :: cut.1, cut.2) := rfl
    rw [hskip, closing?_closers]
    rfl
  fun_induction closing? outer text with
  | case1 outer a b rest hopen ih =>
    obtain ⟨n, hn⟩ := ih (Option.map_eq_none_iff.1 h)
    refine ⟨n, fun more => ?_⟩
    simp only [List.cons_append, closing?, if_pos hopen, hn, Option.map_some]
  | case2 => cases h
  | case3 a b rest hopen hclose outer ih =>
    obtain ⟨n, hn⟩ := ih (Option.map_eq_none_iff.1 h)
    refine ⟨n, fun more => ?_⟩
    simp only [List.cons_append, closing?, if_neg hopen, if_pos hclose, hn, Option.map_some]
  | case4 outer a b rest hopen hclose ih =>
    obtain ⟨n, hn⟩ := ih (Option.map_eq_none_iff.1 h)
    simp only [List.cons_append] at hn
    refine ⟨n, fun more => ?_⟩
    simp only [List.cons_append, closing?, if_neg hopen, if_neg hclose, hn, Option.map_some]
  | case5 text outer hshort =>
    refine ⟨outer + 1, fun more => ?_⟩
    cases text with
    | nil => exact hline outer more
    | cons a tail =>
      cases tail with
      | nil =>
        have hskip : closing? outer (a :: newline :: (closers (outer + 1) ++ more)) =
            (closing? outer (newline :: (closers (outer + 1) ++ more))).map fun cut =>
              (a :: cut.1, cut.2) := by
          rw [closing?.eq_def]
          simp [newline, Glyph.toChar]
        simp only [List.cons_append, List.nil_append, hskip, hline, Option.map_some]
      | cons b rest => exact (hshort a b rest rfl).elim

theorem begins_append_newline {c : Char} (hc : c ≠ '\n') (rest more : Source) :
    begins c (rest ++ newline :: more) = begins c rest := by
  cases rest with
  | nil => simpa [begins, newline, Glyph.toChar] using fun h => hc h.symm
  | cons g rest => rfl

theorem ofSymbol_append_newline (g : Glyph) (rest more : Source) :
    ofSymbol g (rest ++ newline :: more) =
      ((ofSymbol g rest).1, (ofSymbol g rest).2 ++ newline :: more) := by
  unfold ofSymbol
  split
  · rfl
  · cases Mark.ofChar? g.toChar with
    | none => rfl
    | some m =>
      dsimp only
      cases m.withEqual? with
      | none => rfl
      | some longer =>
        cases rest with
        | nil => rfl
        | cons e rest =>
          simp only [List.cons_append]
          split <;> rfl

/-- A piece ends before the end of the line it is followed by, unless it is a comment that is
not closed. -/
theorem first_append_newline (g : Glyph) (rest more : Source)
    (h : (first g rest).1.sort ≠ .openComment) :
    first g (rest ++ newline :: more) =
      ((first g rest).1, (first g rest).2 ++ newline :: more) := by
  have hbegins := fun c hc => begins_append_newline (c := c) hc rest more
  unfold first at h ⊢
  rw [hbegins '/' (by decide), hbegins '*' (by decide)]
  by_cases hblank : Text.isBlank g.toChar
  · simp only [if_pos hblank]
  simp only [if_neg hblank] at h ⊢
  by_cases hline : g.toChar = '/' ∧ begins '/' rest
  · have hstop : isNot '\n' newline = false := rfl
    simp only [if_pos hline, takeWhile_append_stop hstop, dropWhile_append_stop hstop]
  simp only [if_neg hline] at h ⊢
  by_cases hopen : g.toChar = '/' ∧ begins '*' rest
  · obtain ⟨b, rest, rfl⟩ : ∃ b rest', rest = b :: rest' := by
      cases rest with
      | nil => cases hopen.2
      | cons b rest => exact ⟨b, rest, rfl⟩
    simp only [if_pos hopen, List.cons_append, List.tail_cons] at h ⊢
    cases hc : closing? 0 rest with
    | none => simp [hc] at h
    | some cut =>
      simp only [closing?_append hc]
      rfl
  simp only [if_neg hopen]
  by_cases hdigit : isAsciiDigit g
  · have hstop : isAsciiDigit newline = false := by decide
    simp only [if_pos hdigit, takeWhile_append_stop hstop, dropWhile_append_stop hstop]
  simp only [if_neg hdigit]
  by_cases hname : startsName g
  · have hstop : continuesName newline = false := by decide +kernel
    simp only [if_pos hname, takeWhile_append_stop hstop, dropWhile_append_stop hstop]
  simp only [if_neg hname]
  exact ofSymbol_append_newline g rest more

theorem first_comment {a b : Glyph} (ha : a.toChar = '/') (hb : b.toChar = '*')
    (body : Source) :
    first a (b :: body) =
      match closing? 0 body with
      | some (inner, after) => (⟨.blockComment, a :: b :: inner⟩, after)
      | none => (⟨.openComment, a :: b :: body⟩, []) := by
  have hblank : ¬Text.isBlank a.toChar := by
    rw [ha]
    decide
  have hline : ¬(a.toChar = '/' ∧ begins '/' (b :: body)) := by
    simp [begins, hb]
  have hopen : a.toChar = '/' ∧ begins '*' (b :: body) := by
    simp [begins, ha, hb]
  simp only [first, if_neg hblank, if_neg hline, if_pos hopen]
  rfl

theorem of_openComment {g : Glyph} {rest : Source} (h : (first g rest).1.sort = .openComment) :
    ∃ b body, rest = b :: body ∧ g.toChar = '/' ∧ b.toChar = '*' ∧ closing? 0 body = none := by
  by_cases hopen : g.toChar = '/' ∧ begins '*' rest
  · cases rest with
    | nil => cases hopen.2
    | cons b body =>
      have hb : b.toChar = '*' := by simpa [begins] using hopen.2
      refine ⟨b, body, rfl, hopen.1, hb, ?_⟩
      rw [first_comment hopen.1 hb] at h
      cases hc : closing? 0 body with
      | none => rfl
      | some cut =>
        rw [hc] at h
        cases h
  · unfold first ofSymbol at h
    grind

/-- Nothing, or a comment that is not closed. -/
def IsOpenTail (tail : Source) : Prop :=
  tail = [] ∨ ∃ a b body, tail = a :: b :: body ∧ a.toChar = '/' ∧ b.toChar = '*' ∧
    closing? 0 body = none

theorem IsOpenTail.split_eq {tail : Source} (h : IsOpenTail tail) :
    split tail = [] ∨ split tail = [⟨.openComment, tail⟩] := by
  rcases h with rfl | ⟨a, b, body, rfl, ha, hb, hc⟩
  · exact .inl rfl
  · right
    rw [split_cons, first_comment ha hb, hc]
    rfl

/-- The rest of the line can be made to end a comment and to hold nothing else. -/
theorem IsOpenTail.exists_closing {tail : Source} (h : IsOpenTail tail) :
    ∃ closing piece, (piece.sort = .blank ∨ piece.sort = .blockComment) ∧
      ∀ more, split (tail ++ newline :: (closing ++ more)) = piece :: split more := by
  rcases h with rfl | ⟨a, b, body, rfl, ha, hb, hc⟩
  · refine ⟨[], ⟨.blank, [newline]⟩, .inl rfl, fun more => ?_⟩
    rw [List.nil_append, split_cons]
    rfl
  · obtain ⟨n, hn⟩ := exists_closing? hc
    refine ⟨closers n, ⟨.blockComment, a :: b :: (body ++ newline :: closers n)⟩, .inr rfl,
      fun more => ?_⟩
    rw [List.cons_append, List.cons_append, split_cons, first_comment ha hb, hn]

/-- A text falls into pieces that more lines leave alone, and at most one comment that is not
closed. -/
theorem exists_open_tail (text : Source) :
    ∃ pieces tail, split text = pieces ++ split tail ∧
      (∀ more, split (text ++ newline :: more) = pieces ++ split (tail ++ newline :: more)) ∧
      (∀ piece ∈ pieces, piece.sort ≠ .openComment) ∧ IsOpenTail tail := by
  induction text using Piece.induction with
  | nil => exact ⟨[], [], rfl, fun _ => rfl, by simp, .inl rfl⟩
  | cons g rest ih =>
    by_cases hopen : (first g rest).1.sort = .openComment
    · obtain ⟨b, body, rfl, hg, hb, hc⟩ := of_openComment hopen
      exact ⟨[], g :: b :: body, rfl, fun _ => rfl, by simp, .inr ⟨g, b, body, rfl, hg, hb, hc⟩⟩
    · obtain ⟨pieces, tail, hsplit, hmore, hclosed, htail⟩ := ih
      refine ⟨(first g rest).1 :: pieces, tail, ?_, fun more => ?_, ?_, htail⟩
      · rw [split_cons, hsplit]
        rfl
      · rw [List.cons_append, split_cons, first_append_newline g rest more hopen, hmore]
        rfl
      · exact List.forall_mem_cons.2 ⟨hopen, hclosed⟩

end Piece

end Ember
