import Ember.Proofs.Lexer.Decoding
import Ember.Proofs.Lexer.Layout

namespace Ember

open Glyph (newline)
open Piece

namespace Position

theorem step_past (before : Source) (g : Glyph) :
    (past before).step g = past (before ++ [g]) := by
  have hwidth : g.bytes.length = g.width := by
    cases g with
    | char c => exact String.length_utf8EncodeChar c
    | stray => rfl
  have hbytes : (before ++ [g]).bytes.length = before.bytes.length + g.width := by
    rw [Source.bytes_append, List.length_append, ← hwidth]
    simp [Source.bytes]
  by_cases hg : g.toChar = '\n'
  · obtain rfl : g = newline := Glyph.eq_char hg (by decide)
    have hrow : (before ++ [newline]).count newline = before.count newline + 1 := by simp
    have hcolumn : (before ++ [newline]).reverse.takeWhile (· ≠ newline) = [] := by simp
    rw [step, if_pos hg, past, past, hrow, hcolumn, hbytes]
    simp [Nat.add_assoc]
  · have hne : g ≠ newline := by
      rintro rfl
      exact hg rfl
    have hrow : (before ++ [g]).count newline = before.count newline := by
      simp [List.count_append, hne]
    have hcolumn : (before ++ [g]).reverse.takeWhile (· ≠ newline) =
        g :: before.reverse.takeWhile (· ≠ newline) := by simp [hne]
    rw [step, if_neg hg, past, past, hrow, hcolumn, hbytes]
    simp [Nat.add_assoc]

/-- The reader's place is the place after what it has read. -/
theorem after_past (before text : Source) : (past before).after text = past (before ++ text) := by
  induction text generalizing before with
  | nil => simp
  | cons g rest ih =>
    rw [after, List.foldl_cons, step_past]
    exact (ih (before ++ [g])).trans (by simp)

theorem start_eq_past : start = past [] := rfl

end Position

namespace Piece

variable {file : String} {g : Glyph} {rest : Source}

theorem skipped_alien {before after : Source} {code : Code} (halien : IsAlien g)
    (hcode : alienCode g = code) :
    Skipped file before [g] after
      [⟨code, (Position.past before).inFile file, [("char", .text (Source.toString [g]))]⟩] :=
  hcode ▸ .alien halien

theorem skipped_ofSymbol (before : Source) (hblank : Text.isBlank g.toChar = false)
    (hdigit : isAsciiDigit g = false) (hname : startsName g = false)
    (hlexeme : ∀ l, (ofSymbol g rest).1.sort ≠ .lexeme l) :
    Skipped file before (ofSymbol g rest).1.text (ofSymbol g rest).2
      ((ofSymbol g rest).1.diagnostic? ((Position.past before).inFile file)).toList := by
  have halien := isAlien_of_ofChar? hblank hdigit hname
  unfold ofSymbol at hlexeme ⊢
  by_cases hunknown : g.toChar = '&' ∨ g.toChar = '|'
  · have hmark : Mark.ofChar? g.toChar = none := by
      rcases hunknown with hg | hg <;> rw [hg] <;> rfl
    have hglyph : g = .char '&' ∨ g = .char '|' :=
      hunknown.imp (Glyph.eq_char · (by decide)) (Glyph.eq_char · (by decide))
    simp only [if_pos hunknown]
    exact skipped_alien (halien hmark) (if_pos hglyph)
  simp only [if_neg hunknown] at hlexeme ⊢
  cases hmark : Mark.ofChar? g.toChar with
  | none =>
    have hglyph : ¬(g = .char '&' ∨ g = .char '|') := fun h =>
      hunknown (h.imp (congrArg Glyph.toChar) (congrArg Glyph.toChar))
    exact skipped_alien (halien hmark) (if_neg hglyph)
  | some m =>
    simp only [hmark] at hlexeme
    split at hlexeme
    · split at hlexeme <;> exact absurd rfl (hlexeme _)
    · exact absurd rfl (hlexeme _)

theorem begins_iff {c : Char} (hc : c ≠ '\uFFFD') :
    begins c rest ↔ ∃ tail, rest = .char c :: tail := by
  cases rest with
  | nil => simp [begins]
  | cons b tail =>
    have hiff : b.toChar = c ↔ b = .char c := ⟨fun h => Glyph.eq_char h hc, fun h => h ▸ rfl⟩
    simp [begins, hiff]

/-- A piece that is no lexeme is skipped, and reported if it is no part of the language. -/
theorem skipped_first (before : Source) (hlexeme : ∀ l, (first g rest).1.sort ≠ .lexeme l)
    (hclosed : (first g rest).1.sort ≠ .openComment) :
    Skipped file before (first g rest).1.text (first g rest).2
      ((first g rest).1.diagnostic? ((Position.past before).inFile file)).toList := by
  unfold first at hlexeme hclosed ⊢
  by_cases hblank : Text.isBlank g.toChar
  · simp only [if_pos hblank]
    exact .blank hblank
  simp only [if_neg hblank] at hlexeme hclosed ⊢
  by_cases hline : g.toChar = '/' ∧ begins '/' rest
  · obtain ⟨tail, rfl⟩ := (begins_iff (by decide)).1 hline.2
    have hskip : isNot '\n' (.char '/') = true := by decide
    simp only [Glyph.eq_char hline.1 (by decide), List.takeWhile_cons, List.dropWhile_cons, hskip,
      if_true]
    refine .lineComment (fun hmem => ?_) fun b hb => ?_
    · exact absurd (List.mem_takeWhile_imp hmem) (by decide)
    · have hb := head?_dropWhile hb
      exact Glyph.eq_char (by simpa [isNot] using hb) (by decide)
  simp only [if_neg hline] at hlexeme hclosed ⊢
  by_cases hopen : g.toChar = '/' ∧ begins '*' rest
  · obtain ⟨tail, rfl⟩ := (begins_iff (by decide)).1 hopen.2
    simp only [if_pos hopen, List.tail_cons] at hclosed ⊢
    cases hc : closing? 0 tail with
    | none =>
      simp only [hc] at hclosed
      exact absurd rfl hclosed
    | some cut =>
      rw [Glyph.eq_char hopen.1 (by decide)]
      exact .blockComment (isBlockComment_of_closing? hc)
  simp only [if_neg hopen] at hlexeme hclosed ⊢
  by_cases hdigit : isAsciiDigit g
  · simp only [if_pos hdigit] at hlexeme
    exact absurd rfl (hlexeme _)
  simp only [if_neg hdigit] at hlexeme hclosed ⊢
  by_cases hname : startsName g
  · simp only [if_pos hname] at hlexeme
    exact absurd rfl (hlexeme _)
  simp only [if_neg hname] at hlexeme hclosed ⊢
  exact skipped_ofSymbol before (Bool.eq_false_iff.2 hblank) (Bool.eq_false_iff.2 hdigit)
    (Bool.eq_false_iff.2 hname) hlexeme

/-- The pieces of a text are a layout of it. -/
theorem layout_split (file : String) (before text : Source) :
    Layout file before text
      (tokens file (.past before) (split text) ++
        [⟨.endOfFile, (Position.past (before ++ text)).inFile file⟩])
      (problems file (.past before) (split text)) := by
  induction text using Piece.induction generalizing before with
  | nil =>
    rw [List.append_nil]
    exact .finish
  | cons g rest ih =>
    have hcut := text_first g rest
    have hafter := ih (before ++ (first g rest).1.text)
    rw [List.append_assoc, hcut] at hafter
    rw [split_cons, tokens_cons, problems_cons, Position.after_past, List.append_assoc]
    by_cases hopen : (first g rest).1.sort = .openComment
    · obtain ⟨b, body, rfl, hg, hb, hc⟩ := of_openComment hopen
      rw [first_comment hg hb, hc, split_nil, Glyph.eq_char hg (by decide),
        Glyph.eq_char hb (by decide)]
      exact .openComment (isOpenComment_of_closing? hc)
    by_cases hlexeme : ∃ l, (first g rest).1.sort = .lexeme l
    · obtain ⟨l, hl⟩ := hlexeme
      obtain ⟨hspelled, hends⟩ := spelled_first hl
      have htoken := Layout.token hspelled (hspelled.isLongest hends)
        (hspelled.not_startsComment hends) hafter
      rw [hcut] at htoken
      simpa [token?, diagnostic?, hl] using htoken
    · have hskip := Layout.skip (skipped_first before (not_exists.1 hlexeme) hopen) hafter
      rw [hcut] at hskip
      have hnone : (first g rest).1.token? ((Position.past before).inFile file) = none := by
        unfold token?
        split
        · exact absurd ⟨_, ‹_›⟩ hlexeme
        · rfl
      simpa [hnone] using hskip

end Piece

namespace Layout

variable {file : String} {before text : Source} {tokens : List Token} {report : Report}

/-- Every lexeme of a layout stands in the text, at its place, and goes on as far as it can. -/
theorem exists_of_mem (h : Layout file before text tokens report) {t : Token} (ht : t ∈ tokens)
    (hne : t.lexeme ≠ .endOfFile) :
    ∃ front after, text = front ++ t.lexeme.source ++ after ∧
      t.loc = (Position.past (before ++ front)).inFile file ∧
      IsLongest t.lexeme.source after := by
  induction h with
  | finish | openComment =>
    rw [List.mem_singleton.1 ht] at hne
    exact absurd rfl hne
  | @skip before text _ _ _ _ _ _ ih =>
    obtain ⟨front, after, rfl, hloc, hlongest⟩ := ih ht
    exact ⟨text ++ front, after, by simp, by rw [hloc, List.append_assoc], hlongest⟩
  | @token before text after _ _ _ htext hlongest _ _ ih =>
    rcases List.mem_cons.1 ht with rfl | ht
    · rw [← htext.eq_source]
      exact ⟨[], after, rfl, by rw [List.append_nil], hlongest⟩
    · obtain ⟨front, after, rfl, hloc, hlongest⟩ := ih ht
      exact ⟨text ++ front, after, by simp, by rw [hloc, List.append_assoc], hlongest⟩

theorem bytes_length_le (before text : Source) :
    (before.bytes.length : Int) ≤ (before ++ text).bytes.length := by
  rw [Source.bytes_append, List.length_append]
  omega

theorem le_offset (h : Layout file before text tokens report) {t : Token} (ht : t ∈ tokens) :
    before.bytes.length ≤ t.loc.offset := by
  induction h with
  | finish =>
    rw [List.mem_singleton.1 ht]
    exact Int.le_refl _
  | @openComment before text =>
    rw [List.mem_singleton.1 ht]
    exact bytes_length_le before text
  | @skip before text _ _ _ _ _ _ ih => exact Int.le_trans (bytes_length_le before text) (ih ht)
  | @token before text _ _ _ _ _ _ _ _ ih =>
    rcases List.mem_cons.1 ht with rfl | ht
    · exact Int.le_refl _
    · exact Int.le_trans (bytes_length_le before text) (ih ht)

theorem bytes_pos {l : Lexeme} (h : l.Spelled text) : 0 < text.bytes.length := by
  obtain ⟨g, rest, rfl⟩ := List.exists_cons_of_ne_nil h.ne_nil
  have hg : 0 < g.bytes.length := by
    cases g with
    | char => exact List.length_pos_iff.2 String.utf8EncodeChar_ne_nil
    | stray => exact Nat.zero_lt_one
  rw [Source.bytes, List.flatMap_cons, List.length_append]
  omega

/-- Every token starts further on than the one before it. -/
theorem ascending (h : Layout file before text tokens report) :
    (tokens.map (·.loc.offset)).Pairwise (· < ·) := by
  induction h with
  | finish | openComment => exact List.pairwise_singleton _ _
  | skip _ _ ih => exact ih
  | @token before text _ _ _ _ htext _ _ hafter ih =>
    refine List.pairwise_cons.2 ⟨List.forall_mem_map.2 fun t ht => ?_, ih⟩
    have hle := hafter.le_offset ht
    have hpos := bytes_pos htext
    rw [Source.bytes_append, List.length_append] at hle
    change (before.bytes.length : Int) < t.loc.offset
    omega

end Layout

namespace TokenStream

/-- Whatever the bytes of a file are, its tokens and its report are a layout of the text they
stand for. The end of the file is the last token and no other. Each token before it is spelled by
the bytes at its offset, its place is counted in the text before them, and no lexeme goes on into
the text after them. -/
theorem layout_ofBytes (file : String) (bytes : List UInt8) :
    let source := Source.ofBytes bytes
    let stream := ofSource file source
    Source.Decodes bytes source ∧
      Layout file [] source stream.allTokens stream.report ∧
      stream.allTokens =
        stream.tokens ++ [⟨.endOfFile, (Position.past source).inFile file⟩] ∧
      (stream.allTokens.map (·.loc.offset)).Pairwise (· < ·) ∧
      ∀ t ∈ stream.tokens, t.lexeme ≠ .endOfFile ∧ ∃ offset : Nat,
        t.loc.offset = offset ∧
        t.loc = (Position.past (Source.ofBytes (bytes.take offset))).inFile file ∧
        ∃ rest, bytes.drop offset = t.lexeme.source.bytes ++ rest ∧
          IsLongest t.lexeme.source (Source.ofBytes rest) := by
  intro source stream
  have hfinish : stream.allTokens =
      stream.tokens ++ [⟨.endOfFile, (Position.past source).inFile file⟩] := by
    simp only [allTokens, stream, ofSource, Position.start_eq_past, Position.after_past,
      List.nil_append]
  have hlayout : Layout file [] source stream.allTokens stream.report := by
    rw [hfinish]
    exact layout_split file [] source
  have hdecodes := Source.decodes_ofBytes bytes
  refine ⟨hdecodes, hlayout, hfinish, hlayout.ascending, fun t ht => ?_⟩
  have hne := lexeme_ne_of_mem ht
  have hmem : t ∈ stream.allTokens := by
    rw [hfinish]
    exact List.mem_append_left _ ht
  obtain ⟨front, after, hsource, hloc, hlongest⟩ := hlayout.exists_of_mem hmem hne
  have hafter := (Source.ofBytes_cut hsource).2.2
  rw [List.append_assoc] at hsource
  obtain ⟨htake, hdrop, -⟩ := Source.ofBytes_cut hsource
  refine ⟨hne, front.bytes.length, ?_, ?_, after.bytes, ?_, ?_⟩
  · rw [hloc]
    rfl
  · rw [htake, hloc, List.nil_append]
  · rw [hdrop, Source.bytes_append]
  · rw [hafter]
    exact hlongest

/-- A comment inside a comment, a line end, a two-byte letter, a stray byte and a comment that is
not closed: `é/*/**/*/<=`, then the byte 255 and `&1/*` on the next line. -/
theorem layout_ofBytes_mixed :
    ∃ source, Source.Decodes [195, 169, 47, 42, 47, 42, 42, 47, 42, 47, 60, 61, 10, 255, 38, 49, 47,
        42] source ∧
      Layout "m" [] source
        [⟨.identifier "é", ⟨"m", 1, 1, 0⟩⟩, ⟨.mark .lessEqual, ⟨"m", 1, 10, 10⟩⟩,
          ⟨.integer "1", ⟨"m", 2, 3, 15⟩⟩, ⟨.endOfFile, ⟨"m", 2, 6, 18⟩⟩]
        [⟨.unexpectedCharacter, ⟨"m", 2, 1, 13⟩, [("char", .text "\uFFFD")]⟩,
          ⟨.unknownSymbol, ⟨"m", 2, 2, 14⟩, [("char", .text "&")]⟩,
          ⟨.unterminatedComment, ⟨"m", 2, 4, 16⟩, []⟩] := by
  obtain ⟨hdecodes, hlayout, -⟩ := layout_ofBytes "m"
    [195, 169, 47, 42, 47, 42, 42, 47, 42, 47, 60, 61, 10, 255, 38, 49, 47, 42]
  refine ⟨_, hdecodes, ?_⟩
  convert hlayout using 1 <;> decide +kernel

end TokenStream

end Ember
