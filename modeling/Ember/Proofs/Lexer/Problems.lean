import Ember.Proofs.Lexer.Lossless
import Ember.Token.Cursor

namespace Ember

variable {file : String} {before text after : Source} {tokens : List Token} {report : Report}

/-- Nothing is reported of a token. -/
theorem Piece.diagnostic?_of_token? {piece : Piece} {loc : Location} {t : Token}
    (h : piece.token? loc = some t) : piece.diagnostic? loc = none := by
  unfold token? at h
  unfold diagnostic?
  split at h
  · rename_i hsort
    rw [hsort]
  · cases h

theorem Skipped.problem (h : Skipped file before text after report) {d : Diagnostic}
    (hd : d ∈ report) : d.code.phase = "Lexical" ∧ d.loc = (Position.past before).inFile file := by
  cases h with
  | blank | lineComment | blockComment => cases hd
  | alien =>
    rw [List.mem_singleton.1 hd]
    refine ⟨?_, rfl⟩
    unfold Piece.alienCode
    split <;> rfl

/-- There is at most one problem in what is passed over at once. -/
theorem Skipped.pairwise (h : Skipped file before text after report)
    (r : Diagnostic → Diagnostic → Prop) : report.Pairwise r := by
  cases h with
  | blank | lineComment | blockComment => exact List.Pairwise.nil
  | alien => exact List.pairwise_singleton _ _

namespace Layout

theorem file_of_mem (h : Layout file before text tokens report) {t : Token} (ht : t ∈ tokens) :
    t.loc.file = file := by
  induction h with
  | finish | openComment =>
    rw [List.mem_singleton.1 ht]
    rfl
  | skip _ _ ih => exact ih ht
  | token _ _ _ _ ih =>
    rcases List.mem_cons.1 ht with rfl | ht
    · rfl
    · exact ih ht

theorem problem (h : Layout file before text tokens report) {d : Diagnostic} (hd : d ∈ report) :
    d.code.phase = "Lexical" ∧ d.loc.file = file ∧ before.bytes.length ≤ d.loc.offset := by
  induction h with
  | finish => cases hd
  | openComment =>
    rw [List.mem_singleton.1 hd]
    exact ⟨rfl, rfl, Int.le_refl _⟩
  | @skip before text _ _ _ _ htext _ ih =>
    rcases List.mem_append.1 hd with hd | hd
    · obtain ⟨hphase, hloc⟩ := htext.problem hd
      rw [hloc]
      exact ⟨hphase, rfl, Int.le_refl _⟩
    · obtain ⟨hphase, hfile, hle⟩ := ih hd
      exact ⟨hphase, hfile, Int.le_trans (bytes_length_le before text) hle⟩
  | @token before text _ _ _ _ _ _ _ _ ih =>
    obtain ⟨hphase, hfile, hle⟩ := ih hd
    exact ⟨hphase, hfile, Int.le_trans (bytes_length_le before text) hle⟩

/-- No problem stands before one that is found earlier. -/
theorem problems_ascending (h : Layout file before text tokens report) :
    report.Pairwise fun d e => d.loc.offset ≤ e.loc.offset := by
  induction h with
  | finish => exact List.Pairwise.nil
  | openComment => exact List.pairwise_singleton _ _
  | @skip before text after _ report rest htext hafter ih =>
    refine List.pairwise_append.2 ⟨htext.pairwise _, ih, fun d hd e he => ?_⟩
    rw [(htext.problem hd).2]
    exact Int.le_trans (bytes_length_le before text) (hafter.problem he).2.2
  | token _ _ _ _ ih => exact ih

end Layout

theorem TokenStream.layout_ofSource (file : String) (source : Source) :
    Layout file [] source (ofSource file source).allTokens (ofSource file source).report := by
  have hlayout := Piece.layout_split file [] source
  have hfinish : Position.start.after source = Position.past source := by
    rw [Position.start_eq_past, Position.after_past, List.nil_append]
  rwa [List.nil_append, ← hfinish] at hlayout

namespace Cursor

open Piece (problems)

/-- The tokens that so many takes give, and the cursor after them. -/
def take : Nat → Cursor → List Token × Cursor
  | 0, c => ([], c)
  | n + 1, c => (c.next.1 :: (take n c.next.2).1, (take n c.next.2).2)

/-- At the end of a text every take gives the end of the file. -/
theorem take_end (file : String) (p : Position) (report : Report) (n : Nat) :
    take n ⟨file, p, [], none, report⟩ =
      (List.replicate n ⟨.endOfFile, p.inFile file⟩, ⟨file, p, [], none, report⟩) := by
  induction n with
  | zero => rfl
  | succ n ih =>
    have hnext : (next ⟨file, p, [], none, report⟩) =
        (⟨.endOfFile, p.inFile file⟩, ⟨file, p, [], none, report⟩) := rfl
    rw [take, hnext, ih, List.replicate_succ]

/-- A piece that is no token is passed over, and its problem reported. -/
theorem take_skip {p : Position} {piece : Piece} (h : piece.token? (p.inFile file) = none)
    (rest : List Piece) (report : Report) (n : Nat) :
    take (n + 1) ⟨file, p, piece :: rest, none, report⟩ =
      take (n + 1) ⟨file, p.after piece.text, rest, none,
        report ++ (piece.diagnostic? (p.inFile file)).toList⟩ := by
  have hnext : next ⟨file, p, piece :: rest, none, report⟩ =
      next ⟨file, p.after piece.text, rest, none,
        report ++ (piece.diagnostic? (p.inFile file)).toList⟩ := by
    change advance _ _ _ _ = _
    rw [advance]
    dsimp only
    rw [h]
    rfl
  rw [take, hnext, take]

theorem take_token {p : Position} {piece : Piece} {t : Token}
    (h : piece.token? (p.inFile file) = some t) (rest : List Piece) (report : Report) (n : Nat) :
    take (n + 1) ⟨file, p, piece :: rest, none, report⟩ =
      (t :: (take n ⟨file, p.after piece.text, rest, none, report⟩).1,
        (take n ⟨file, p.after piece.text, rest, none, report⟩).2) := by
  have hnext : next ⟨file, p, piece :: rest, none, report⟩ =
      (t, ⟨file, p.after piece.text, rest, none, report⟩) := by
    change advance _ _ _ _ = _
    rw [advance]
    dsimp only
    rw [h]
  rw [take, hnext]

/-- One take for each token and one more pass over the whole text. -/
theorem take_pieces (file : String) (p : Position) (pieces : List Piece) (report : Report)
    (n : Nat) :
    take ((Piece.tokens file p pieces).length + (n + 1)) ⟨file, p, pieces, none, report⟩ =
      (Piece.tokens file p pieces ++
        List.replicate (n + 1) ⟨.endOfFile, (p.after (pieces.flatMap Piece.text)).inFile file⟩,
        ⟨file, p.after (pieces.flatMap Piece.text), [], none,
          report ++ problems file p pieces⟩) := by
  induction pieces generalizing p report with
  | nil =>
    rw [take_end]
    simp [Piece.tokens, problems, Position.place]
  | cons piece rest ih =>
    rw [Piece.tokens_cons, Piece.problems_cons, List.flatMap_cons, Position.after_append]
    cases htoken : piece.token? (p.inFile file) with
    | none =>
      rw [Option.toList_none, List.nil_append, ← Nat.add_assoc, take_skip htoken, Nat.add_assoc, ih,
        List.append_assoc]
    | some t =>
      rw [Piece.diagnostic?_of_token? htoken, Option.toList_some, Option.toList_none, List.nil_append, List.cons_append,
        List.nil_append, List.length_cons, Nat.succ_add, take_token htoken, ih, List.cons_append]

/-- A reader that has handed out the end of the file has handed out the tokens of the text before
it, and reported all that is reported of the text. -/
theorem take_ofSource (file : String) (source : Source) (n : Nat) :
    take ((TokenStream.ofSource file source).tokens.length + (n + 1)) (ofSource file source) =
      ((TokenStream.ofSource file source).allTokens ++
        List.replicate n ⟨.endOfFile, (TokenStream.ofSource file source).finish⟩,
        ⟨file, Position.start.after source, [], none,
          (TokenStream.ofSource file source).report⟩) := by
  have htake := take_pieces file .start (Piece.split source) [] n
  rw [Piece.flatMap_split, List.nil_append, List.replicate_succ, List.append_cons] at htake
  exact htake

end Cursor

end Ember
