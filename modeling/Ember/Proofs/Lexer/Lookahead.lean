import Ember.Proofs.Lexer.Reader

namespace Ember

open Reading (Request Reply)

/-- The token that follows `n` others. The end of the file follows itself. -/
def TokenStream.tokenAt (s : TokenStream) (n : Nat) : Token :=
  s.allTokens[n]?.getD ⟨.endOfFile, s.finish⟩

namespace TokenStream

variable {s : TokenStream} {n : Nat}

theorem tokenAt_of_drop {t : Token} {rest : List Token} (h : s.tokens.drop n = t :: rest) :
    s.tokenAt n = t := by
  have hget : s.tokens[n]? = some t := by rw [← List.head?_drop, h, List.head?_cons]
  have hlt := (List.getElem?_eq_some_iff.1 hget).1
  rw [tokenAt, allTokens, List.getElem?_append_left hlt, hget, Option.getD_some]

theorem tokenAt_of_le (h : s.tokens.length ≤ n) : s.tokenAt n = ⟨.endOfFile, s.finish⟩ := by
  rw [tokenAt, allTokens, List.getElem?_append_right h]
  cases n - s.tokens.length <;> rfl

/-- Where no token is the end of the file, only what follows all of them is. -/
theorem le_of_tokenAt_end (hreal : ∀ t ∈ s.tokens, t.lexeme ≠ .endOfFile)
    (h : (s.tokenAt n).lexeme = .endOfFile) : s.tokens.length ≤ n := by
  by_contra hlt
  have hdrop := List.drop_eq_getElem_cons (Nat.not_le.1 hlt)
  rw [tokenAt_of_drop hdrop] at h
  exact hreal _ (List.getElem_mem _) h

end TokenStream

namespace Cursor

variable {stream : TokenStream} {n : Nat} {c : Cursor}

/-- A cursor has passed `n` tokens of a stream: the others are ahead, and the problems between them
are not reported yet. Once the end of the file has passed, nothing is ahead. -/
structure Passed (stream : TokenStream) (n : Nat) (c : Cursor) : Prop where
  tokens_eq : Piece.tokens c.file c.position c.ahead = stream.tokens.drop n
  finish_eq : (c.position.after (c.ahead.flatMap Piece.text)).inFile c.file = stream.finish
  report_eq : c.report ++ Piece.problems c.file c.position c.ahead = stream.report
  ahead_eq : stream.tokens.length < n → c.ahead = []

namespace Passed

theorem report_prefix (h : Passed stream n c) : c.report <+: stream.report :=
  ⟨_, h.report_eq⟩

theorem report_eq_of_ahead (h : Passed stream n c) (hahead : c.ahead = []) :
    c.report = stream.report := by
  rw [← h.report_eq, hahead]
  exact (List.append_nil _).symm

/-- What a cursor keeps for later is no matter of what it has passed. -/
theorem keep (h : Passed stream n c) (t : Option Token) :
    Passed stream n { c with peeked := t } :=
  ⟨h.tokens_eq, h.finish_eq, h.report_eq, h.ahead_eq⟩

/-- Advancing passes the next token. -/
theorem advance (h : Passed stream n c) :
    (Cursor.advance c.file c.position c.ahead c.report).1 = stream.tokenAt n ∧
      (Cursor.advance c.file c.position c.ahead c.report).2.peeked = none ∧
      Passed stream (n + 1) (Cursor.advance c.file c.position c.ahead c.report).2 := by
  obtain ⟨file, p, pieces, peeked, report⟩ := c
  induction pieces generalizing p report with
  | nil =>
    have hle : stream.tokens.length ≤ n := List.drop_eq_nil_iff.1 h.tokens_eq.symm
    rw [TokenStream.tokenAt_of_le hle, ← h.finish_eq]
    exact ⟨rfl, rfl, (List.drop_eq_nil_of_le (Nat.le_succ_of_le hle)).symm, h.finish_eq,
      h.report_eq, fun _ => rfl⟩
  | cons piece rest ih =>
    obtain ⟨htokens, hfinish, hreport, hahead⟩ := h
    have hle : n ≤ stream.tokens.length := Nat.le_of_not_lt fun hlt => nomatch hahead hlt
    rw [List.flatMap_cons, Position.after_append] at hfinish
    rw [Piece.problems_cons, ← List.append_assoc] at hreport
    rw [Piece.tokens_cons] at htokens
    simp only [Cursor.advance]
    cases htoken : piece.token? (p.inFile file) with
    | none =>
      rw [htoken, Option.toList_none, List.nil_append] at htokens
      exact ih _ _ ⟨htokens, hfinish, hreport, fun hlt => absurd hlt (Nat.not_lt.2 hle)⟩
    | some t =>
      rw [htoken, Option.toList_some, List.singleton_append] at htokens
      rw [Piece.diagnostic?_of_token? htoken, Option.toList_none, List.append_nil] at hreport
      have hdrop : stream.tokens.drop (n + 1) = Piece.tokens file (p.after piece.text) rest := by
        rw [← List.drop_drop, ← htokens, List.drop_one, List.tail_cons]
      refine ⟨(TokenStream.tokenAt_of_drop htokens.symm).symm, rfl, hdrop.symm, hfinish, hreport,
        fun hlt => ?_⟩
      have hlt' : n < stream.tokens.length := by
        have hlength := congrArg List.length htokens
        simp only [List.length_cons, List.length_drop] at hlength
        omega
      omega

end Passed

/-- Where nothing is ahead nothing comes. -/
theorem ahead_serve (h : c.ahead = []) (request : Request) : (serve request c).2.ahead = [] := by
  have hnext : c.next.2.ahead = [] := by
    unfold next
    split
    · exact h
    · rw [h]
      rfl
  cases request with
  | next => exact hnext
  | peek =>
    cases hpeeked : c.peeked with
    | some t =>
      simp only [serve, peek, hpeeked]
      exact h
    | none =>
      simp only [serve, peek_of_none hpeeked]
      exact hnext
  | report => exact h

theorem ahead_after (h : c.ahead = []) (requests : List Request) :
    (Reading.after serve c requests).ahead = [] := by
  induction requests generalizing c with
  | nil => exact h
  | cons request rest ih => exact ih (ahead_serve h request)

/-- `n` tokens of a stream are taken. A token that is kept is the next one, and has passed. -/
structure Taken (stream : TokenStream) (n : Nat) (c : Cursor) : Prop where
  passed : Passed stream (n + c.peeked.toList.length) c
  peeked_eq : ∀ t ∈ c.peeked, t = stream.tokenAt n

namespace Taken

theorem next (h : Taken stream n c) :
    c.next.1 = stream.tokenAt n ∧ Taken stream (n + 1) c.next.2 := by
  obtain ⟨hpassed, hkept⟩ := h
  cases hpeeked : c.peeked with
  | some t =>
    rw [hpeeked] at hpassed hkept
    simp only [Cursor.next, hpeeked]
    exact ⟨hkept t rfl, hpassed.keep none, fun _ h => absurd h (Option.not_mem_none _)⟩
  | none =>
    rw [hpeeked] at hpassed
    obtain ⟨htoken, hnone, hnext⟩ := hpassed.advance
    rw [next_of_none hpeeked]
    refine ⟨htoken, ?_, ?_⟩ <;> rw [hnone]
    · exact hnext
    · exact fun _ h => absurd h (Option.not_mem_none _)

/-- The next token is kept when it is shown. -/
theorem peek (h : Taken stream n c) :
    c.peek.1 = stream.tokenAt n ∧ Taken stream n c.peek.2 ∧ Passed stream (n + 1) c.peek.2 := by
  cases hpeeked : c.peeked with
  | some t =>
    have hpassed := h.passed
    rw [hpeeked] at hpassed
    simp only [Cursor.peek, hpeeked]
    exact ⟨h.peeked_eq t hpeeked, h, hpassed⟩
  | none =>
    have hpassed := h.passed
    rw [hpeeked] at hpassed
    obtain ⟨htoken, -, hnext⟩ := hpassed.advance
    rw [peek_of_none hpeeked, next_of_none hpeeked]
    refine ⟨htoken, ⟨hnext.keep _, ?_⟩, hnext.keep _⟩
    rintro t ht
    cases ht
    exact htoken

/-- A request takes a token if it asks for the next one. -/
theorem serve (h : Taken stream n c) (request : Request) :
    Taken stream (n + [request].count .next) (serve request c).2 := by
  cases request with
  | next => exact h.next.2
  | peek => exact h.peek.2.1
  | report => exact h

theorem after (h : Taken stream n c) (requests : List Request) :
    Taken stream (n + requests.count .next) (Reading.after Cursor.serve c requests) := by
  induction requests generalizing n c with
  | nil => exact h
  | cons request rest ih =>
    have hrest := ih (h.serve request)
    rwa [Nat.add_assoc, ← List.count_append] at hrest

/-- Nothing is ahead once the end of the file is replied. -/
theorem ahead_of_end (h : Taken stream n c) (hreal : ∀ t ∈ stream.tokens, t.lexeme ≠ .endOfFile)
    {request : Request} {t : Token} (hreply : (Cursor.serve request c).1 = .token t)
    (hend : t.lexeme = .endOfFile) : (Cursor.serve request c).2.ahead = [] := by
  have hle : ∀ {t'}, Reply.token t' = .token t → t' = stream.tokenAt n →
      stream.tokens.length ≤ n := by
    rintro t' hsame htoken
    cases hsame
    exact TokenStream.le_of_tokenAt_end hreal (htoken ▸ hend)
  cases request with
  | next =>
    obtain ⟨htoken, hnext⟩ := h.next
    exact hnext.passed.ahead_eq (by have := hle hreply htoken; omega)
  | peek =>
    obtain ⟨htoken, -, hpassed⟩ := h.peek
    exact hpassed.ahead_eq (by have := hle hreply htoken; omega)
  | report => cases hreply

/-- Nothing is ahead after requests to one of which the end of the file is replied. -/
theorem ahead_after_end (h : Taken stream n c) (hreal : ∀ t ∈ stream.tokens, t.lexeme ≠ .endOfFile)
    {requests : List Request} {j : Nat} {t : Token}
    (hreply : (Reading.replies Cursor.serve c requests)[j]? = some (.token t))
    (hend : t.lexeme = .endOfFile) : (Reading.after Cursor.serve c requests).ahead = [] := by
  induction requests generalizing n c j with
  | nil => cases hreply
  | cons request rest ih =>
    cases j with
    | zero => exact ahead_after (h.ahead_of_end hreal (Option.some.inj hreply) hend) rest
    | succ j => exact ih (h.serve request) hreply

end Taken

/-- Nothing of a text is taken at first. -/
theorem taken_ofSource (file : String) (source : Source) :
    Taken (TokenStream.ofSource file source) 0 (ofSource file source) := by
  refine ⟨⟨rfl, ?_, rfl, fun h => absurd h (Nat.not_lt_zero _)⟩,
    fun _ h => absurd h (Option.not_mem_none _)⟩
  change (Position.start.after ((Piece.split source).flatMap Piece.text)).inFile file = _
  rw [Piece.flatMap_split]
  rfl

/-- Between two requests nothing is taken if none of those from the first on takes a token. -/
theorem count_take_eq {requests : List Request} {j k : Nat} (hjk : j ≤ k)
    (h : ∀ i, j ≤ i → i < k → requests[i]? ≠ some .next) :
    (requests.take k).count .next = (requests.take j).count .next := by
  induction k, hjk using Nat.le_induction with
  | base => rfl
  | succ k hjk ih =>
    have hrest : requests[k]?.toList.count .next = 0 := by
      rw [List.count_eq_zero]
      intro hmem
      exact h k hjk (Nat.lt_succ_self k) (Option.mem_toList.1 hmem)
    rw [List.take_add_one, List.count_append, hrest, Nat.add_zero,
      ih fun i hji hik => h i hji (Nat.lt_succ_of_lt hik)]

/-- However requests for the next token, for a look at it and for the report are mixed, a reader of
a text and a cursor over its pieces reply the same: the token that is taken or shown after `n` taken
ones is the one that `n` others of the text come before, and the end of the file from then on, so
that a token that is shown is the one that is taken next. A report is the beginning of that of the
text, and all of it once the end of the file is replied. -/
theorem replies_ofSource (file : String) (source : Source) (requests : List Request) :
    let stream := TokenStream.ofSource file source
    let replies := Reading.replies serve (ofSource file source) requests
    Reading.replies Reader.serve (Reader.ofSource file source) requests = replies ∧
      (∀ k : Nat, requests[k]? = some .next →
        replies[k]? = some (.token (stream.tokenAt ((requests.take k).count .next)))) ∧
      (∀ k : Nat, requests[k]? = some .peek →
        replies[k]? = some (.token (stream.tokenAt ((requests.take k).count .next)))) ∧
      (∀ j k : Nat, j < k → requests[j]? = some .peek → requests[k]? = some .next →
        (∀ i, j < i → i < k → requests[i]? ≠ some .next) → replies[j]? = replies[k]?) ∧
      ∀ k : Nat, requests[k]? = some .report → ∃ report,
        replies[k]? = some (.report report) ∧ report <+: stream.report ∧
        ((∃ j < k, ∃ t, replies[j]? = some (.token t) ∧ t.lexeme = .endOfFile) →
          report = stream.report) := by
  intro stream replies
  have htaken (k : Nat) : Taken stream ((requests.take k).count .next)
      (Reading.after serve (ofSource file source) (requests.take k)) := by
    have h := (taken_ofSource file source).after (requests.take k)
    rwa [Nat.zero_add] at h
  have hreply {k : Nat} {request : Request} (h : requests[k]? = some request) : replies[k]? =
      some (serve request (Reading.after serve (ofSource file source) (requests.take k))).1 := by
    rw [Reading.getElem?_replies, h, Option.map_some]
  have hnext (k : Nat) (h : requests[k]? = some .next) : replies[k]? =
      some (.token (stream.tokenAt ((requests.take k).count .next))) := by
    rw [hreply h, ← (htaken k).next.1]
    rfl
  have hpeek (k : Nat) (h : requests[k]? = some .peek) : replies[k]? =
      some (.token (stream.tokenAt ((requests.take k).count .next))) := by
    rw [hreply h, ← (htaken k).peek.1]
    rfl
  refine ⟨Reader.replies_eq file source requests, hnext, hpeek, ?_, ?_⟩
  · intro j k hjk hj hk hbetween
    have hcount : (requests.take k).count .next = (requests.take j).count .next := by
      refine count_take_eq hjk.le fun i hji hik => ?_
      rcases hji.eq_or_lt with rfl | hlt
      · rw [hj]
        nofun
      · exact hbetween i hlt hik
    rw [hpeek j hj, hnext k hk, hcount]
  · intro k hk
    refine ⟨_, hreply hk, (htaken k).passed.report_prefix, ?_⟩
    rintro ⟨j, hjk, t, ht, hend⟩
    rw [← Reading.getElem?_replies_take _ _ hjk] at ht
    exact (htaken k).passed.report_eq_of_ahead ((taken_ofSource file source).ahead_after_end
      (fun _ => TokenStream.lexeme_ne_of_mem) ht hend)

/-- The text `x & y /*`, with a look at each token before it is taken. The symbol is reported once
what follows it is shown, and the comment once the end of the file is. -/
theorem replies_ofSource_comment :
    let requests : List Request :=
      [.peek, .next, .report, .peek, .peek, .report, .next, .peek, .report, .next, .next]
    let replies : List Reply :=
      Reading.replies serve (ofSource "m" (Source.ofString "x & y /*")) requests
    requests[3]? = some .peek ∧ requests[6]? = some .next ∧ replies[3]? = replies[6]? ∧
      replies[6]? = some (.token ⟨.identifier "y", ⟨"m", 1, 5, 4⟩⟩) ∧
      requests[7]? = some .peek ∧ requests[10]? = some .next ∧
      replies[7]? = some (.token ⟨.endOfFile, ⟨"m", 1, 9, 8⟩⟩) ∧
      replies[10]? = some (.token ⟨.endOfFile, ⟨"m", 1, 9, 8⟩⟩) ∧
      requests[8]? = some .report ∧
      replies[8]? = some (.report [⟨.unknownSymbol, ⟨"m", 1, 3, 2⟩, [("char", .text "&")]⟩,
        ⟨.unterminatedComment, ⟨"m", 1, 7, 6⟩, []⟩]) := by
  intro requests replies
  obtain ⟨-, hnext, hpeek, hsame, hreport⟩ :=
    replies_ofSource "m" (Source.ofString "x & y /*") requests
  have hlook : replies[3]? = replies[6]? := by
    refine hsame 3 6 (by decide) rfl rfl fun i hlo hhi => ?_
    obtain rfl | rfl : i = 4 ∨ i = 5 := by omega
    all_goals decide
  have hend : replies[7]? = some (.token ⟨.endOfFile, ⟨"m", 1, 9, 8⟩⟩) :=
    (hpeek 7 rfl).trans (by decide +kernel)
  obtain ⟨report, hreply, -, hall⟩ := hreport 8 rfl
  have hwhole := hall ⟨7, by decide, _, hend, rfl⟩
  refine ⟨rfl, rfl, hlook, (hnext 6 rfl).trans (by decide +kernel), rfl, rfl, hend,
    (hnext 10 rfl).trans (by decide +kernel), rfl, ?_⟩
  rw [hreply, hwhole]
  decide +kernel

end Cursor

end Ember
