import Ember.Proofs.Lexer.Problems

namespace Ember

/-- What can be asked of a reader. -/
inductive Reading.Request where
  | next
  | peek
  | report
  deriving DecidableEq

/-- What it replies: a token, or what it has reported so far. -/
inductive Reading.Reply where
  | token (t : Token)
  | report (r : Report)
  deriving DecidableEq

namespace Reading

variable {α β : Type} {serve : Request → α → Reply × α} {serve' : Request → β → Reply × β}

/-- The replies to requests that are made one after the other. -/
def replies (serve : Request → α → Reply × α) : α → List Request → List Reply
  | _, [] => []
  | a, request :: rest => (serve request a).1 :: replies serve (serve request a).2 rest

/-- What is left after requests. -/
def after (serve : Request → α → Reply × α) (a : α) (requests : List Request) : α :=
  requests.foldl (fun a request => (serve request a).2) a

theorem getElem?_replies (a : α) (requests : List Request) (k : Nat) :
    (replies serve a requests)[k]? =
      requests[k]?.map fun request => (serve request (after serve a (requests.take k))).1 := by
  induction requests generalizing a k with
  | nil => simp [replies]
  | cons request rest ih =>
    cases k with
    | zero => rfl
    | succ k => exact ih (serve request a).2 k

/-- A reply does not depend on later requests. -/
theorem getElem?_replies_take (a : α) (requests : List Request) {j k : Nat} (hjk : j < k) :
    (replies serve a (requests.take k))[j]? = (replies serve a requests)[j]? := by
  rw [getElem?_replies, getElem?_replies, List.getElem?_take_of_lt hjk, List.take_take,
    Nat.min_eq_left hjk.le]

/-- What replies the same to every request, and goes on alike, replies the same to all of them. -/
theorem replies_eq_of_alike (alike : α → β → Prop)
    (h : ∀ a b request, alike a b → (serve request a).1 = (serve' request b).1 ∧
      alike (serve request a).2 (serve' request b).2) {a : α} {b : β} (hab : alike a b)
    (requests : List Request) : replies serve a requests = replies serve' b requests := by
  induction requests generalizing a b with
  | nil => rfl
  | cons request rest ih =>
    obtain ⟨hreply, hnext⟩ := h a b request hab
    rw [replies, replies, hreply, ih hnext]

end Reading

open Reading (Request Reply)

namespace Cursor

variable {c : Cursor}

theorem next_of_none (h : c.peeked = none) :
    c.next = advance c.file c.position c.ahead c.report := by
  simp only [next, h]

/-- Where no token is kept, peeking takes the next one and keeps it. -/
theorem peek_of_none (h : c.peeked = none) :
    c.peek = (c.next.1, { c.next.2 with peeked := some c.next.1 }) := by
  simp only [peek, next, h]

/-- Answers a request. -/
def serve : Request → Cursor → Reply × Cursor
  | .next, c => (.token c.next.1, c.next.2)
  | .peek, c => (.token c.peek.1, c.peek.2)
  | .report, c => (.report c.report, c)

end Cursor

/-- A text that is read from its beginning: the part that is left, the token that was only shown,
and whether the text has ended. -/
structure Reader where
  file : String
  position : Position
  rest : Source
  peeked : Option Token
  done : Bool
  report : Report

namespace Reader

def ofSource (file : String) (source : Source) : Reader := ⟨file, .start, source, none, false, []⟩

/-- Cuts off pieces up to the next token. An open comment ends the text. -/
def scan (file : String) (p : Position) (report : Report) : Source → Token × Reader
  | [] => (⟨.endOfFile, p.inFile file⟩, ⟨file, p, [], none, true, report⟩)
  | g :: text =>
    let piece := (Piece.first g text).1
    let rest := (Piece.first g text).2
    let after := p.after piece.text
    let report := report ++ (piece.diagnostic? (p.inFile file)).toList
    if piece.sort = .openComment then
      (⟨.endOfFile, after.inFile file⟩, ⟨file, after, rest, none, true, report⟩)
    else
      match piece.token? (p.inFile file) with
      | some token => (token, ⟨file, after, rest, none, false, report⟩)
      | none => scan file after report rest
termination_by source => source.length
decreasing_by exact Nat.lt_succ_of_le (Piece.length_first g text)

/-- Takes the next token. -/
def next (r : Reader) : Token × Reader :=
  match r.peeked with
  | some token => (token, { r with peeked := none })
  | none =>
    if r.done then (⟨.endOfFile, r.position.inFile r.file⟩, r)
    else scan r.file r.position r.report r.rest

/-- Shows the next token without taking it. -/
def peek (r : Reader) : Token × Reader :=
  match r.peeked with
  | some token => (token, r)
  | none => (r.next.1, { r.next.2 with peeked := some r.next.1 })

/-- Answers a request. -/
def serve : Request → Reader → Reply × Reader
  | .next, r => (.token r.next.1, r.next.2)
  | .peek, r => (.token r.peek.1, r.peek.2)
  | .report, r => (.report r.report, r)

/-- The cursor that stands where the reader does. -/
def cursor (r : Reader) : Cursor := ⟨r.file, r.position, Piece.split r.rest, r.peeked, r.report⟩

/-- Nothing is left of a text that has ended. -/
def Sound (r : Reader) : Prop := r.done → r.rest = []

end Reader

/-- Nothing follows an open comment. -/
theorem Piece.rest_of_openComment {g : Glyph} {rest : Source}
    (h : (first g rest).1.sort = .openComment) : (first g rest).2 = [] := by
  unfold first ofSymbol at *
  grind

namespace Reader

/-- Cutting on demand comes to what advancing over the pieces does. -/
theorem cursor_scan (file : String) (p : Position) (report : Report) (source : Source) :
    Cursor.advance file p (Piece.split source) report =
        ((scan file p report source).1, (scan file p report source).2.cursor) ∧
      (scan file p report source).2.Sound := by
  induction source using Piece.induction generalizing p report with
  | nil =>
    rw [scan.eq_def]
    exact ⟨rfl, fun _ => rfl⟩
  | cons g text ih =>
    rw [Piece.split_cons, Cursor.advance, scan.eq_def]
    dsimp only
    by_cases hopen : (Piece.first g text).1.sort = .openComment
    · have hrest := Piece.rest_of_openComment hopen
      have htoken : (Piece.first g text).1.token? (p.inFile file) = none := by
        rw [Piece.token?, hopen]
      rw [if_pos hopen, htoken, hrest]
      exact ⟨rfl, fun _ => rfl⟩
    · rw [if_neg hopen]
      cases htoken : (Piece.first g text).1.token? (p.inFile file) with
      | some t =>
        rw [Piece.diagnostic?_of_token? htoken, Option.toList_none, List.append_nil]
        exact ⟨rfl, fun h => absurd h Bool.false_ne_true⟩
      | none => exact ih _ _

theorem cursor_next {r : Reader} (h : r.Sound) :
    r.cursor.next = (r.next.1, r.next.2.cursor) ∧ r.next.2.Sound := by
  cases hpeeked : r.peeked with
  | some t =>
    simp only [Cursor.next, next, cursor, hpeeked]
    exact ⟨trivial, h⟩
  | none =>
    rw [Cursor.next_of_none hpeeked]
    simp only [next, cursor, hpeeked]
    split
    · rename_i hdone
      rw [h hdone, hpeeked]
      exact ⟨rfl, h⟩
    · exact cursor_scan r.file r.position r.report r.rest

theorem cursor_peek {r : Reader} (h : r.Sound) :
    r.cursor.peek = (r.peek.1, r.peek.2.cursor) ∧ r.peek.2.Sound := by
  obtain ⟨hnext, hsound⟩ := cursor_next h
  unfold peek
  cases hpeeked : r.peeked with
  | some t => exact ⟨by simp only [Cursor.peek, cursor, hpeeked], h⟩
  | none =>
    refine ⟨?_, hsound⟩
    rw [Cursor.peek_of_none hpeeked, hnext]
    rfl

theorem cursor_serve {r : Reader} (h : r.Sound) (request : Request) :
    (serve request r).1 = (Cursor.serve request r.cursor).1 ∧
      (serve request r).2.cursor = (Cursor.serve request r.cursor).2 ∧ (serve request r).2.Sound := by
  cases request with
  | next =>
    obtain ⟨hnext, hsound⟩ := cursor_next h
    simp only [serve, Cursor.serve, hnext]
    exact ⟨trivial, trivial, hsound⟩
  | peek =>
    obtain ⟨hpeek, hsound⟩ := cursor_peek h
    simp only [serve, Cursor.serve, hpeek]
    exact ⟨trivial, trivial, hsound⟩
  | report => exact ⟨rfl, rfl, h⟩

/-- A reader that cuts its text on demand replies what a cursor of the text replies. -/
theorem replies_eq (file : String) (source : Source) (requests : List Request) :
    Reading.replies serve (ofSource file source) requests =
      Reading.replies Cursor.serve (Cursor.ofSource file source) requests := by
  refine Reading.replies_eq_of_alike (fun r c => r.cursor = c ∧ r.Sound) ?_ ⟨rfl, nofun⟩ requests
  rintro r c request ⟨rfl, h⟩
  exact cursor_serve h request

end Reader

end Ember
