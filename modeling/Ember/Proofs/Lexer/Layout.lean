import Ember.Proofs.Lexer.Readable
import Ember.Proofs.Lexer.Stream

namespace Ember

open Glyph (newline)

theorem Glyph.eq_char {g : Glyph} {c : Char} (h : g.toChar = c) (hc : c ≠ '\uFFFD') :
    g = .char c := by
  cases g with
  | char => exact congrArg Glyph.char h
  | stray => exact absurd h.symm hc

/-- The lexeme is what the text spells. -/
inductive Lexeme.Spelled : Lexeme → Source → Prop
  | integer {digits : Source} (hne : digits ≠ []) (hall : ∀ g ∈ digits, Piece.isAsciiDigit g) :
    Spelled (.integer digits.toString) digits
  | keyword (word : Keyword) : Spelled (.keyword word) (.ofString word.spelling)
  | identifier {g : Glyph} {tail : Source} (hstart : Piece.startsName g)
    (hall : ∀ b ∈ tail, Piece.continuesName b)
    (hfree : ∀ word : Keyword, word.spelling ≠ Source.toString (g :: tail)) :
    Spelled (.identifier (Source.toString (g :: tail))) (g :: tail)
  | mark (mark : Mark) : Spelled (.mark mark) (.ofString mark.spelling)

namespace Piece

/-- The text begins with one of the marks that open and close a block comment. -/
def Delimits (text : Source) : Prop :=
  [.char '/', .char '*'] <+: text ∨ [.char '*', .char '/'] <+: text

/-- What follows the opening of a block comment up to its end. Comments nest. -/
inductive CommentTail : Source → Prop
  | close : CommentTail [.char '*', .char '/']
  | nested {inner rest : Source} (hinner : CommentTail inner) (hrest : CommentTail rest) :
    CommentTail (.char '/' :: .char '*' :: (inner ++ rest))
  | plain {g : Glyph} {rest : Source} (hplain : ¬Delimits (g :: rest))
    (hrest : CommentTail rest) : CommentTail (g :: rest)

def IsBlockComment (text : Source) : Prop :=
  ∃ tail, text = .char '/' :: .char '*' :: tail ∧ CommentTail tail

/-- A block comment begins the text and does not end in it. -/
def IsOpenComment (text : Source) : Prop :=
  [.char '/', .char '*'] <+: text ∧ ∀ comment, IsBlockComment comment → ¬comment <+: text

def StartsComment (text : Source) : Prop :=
  [.char '/', .char '/'] <+: text ∨ [.char '/', .char '*'] <+: text

/-- No lexeme begins like the text and takes in more of what follows. -/
def IsLongest (text after : Source) : Prop :=
  ∀ more, more ≠ [] → more <+: after → ∀ l : Lexeme, ¬l.Spelled (text ++ more)

/-- A glyph that is neither white space nor the first of a lexeme. -/
def IsAlien (g : Glyph) : Prop :=
  Text.isBlank g.toChar = false ∧ ∀ (l : Lexeme) (tail : Source), ¬l.Spelled (g :: tail)

/-- How an alien glyph is reported. -/
def alienCode (g : Glyph) : Code :=
  if g = .char '&' ∨ g = .char '|' then .unknownSymbol else .unexpectedCharacter

end Piece

/-- The place right after a text that stands at the start of its file. -/
def Position.past (before : Source) : Position :=
  ⟨1 + before.count newline, 1 + (before.reverse.takeWhile (· ≠ newline)).length,
    before.bytes.length⟩

open Piece

/-- A stretch of text between `before` and `after` that is no lexeme, and its report. -/
inductive Skipped (file : String) : (before text after : Source) → Report → Prop
  | blank {before after : Source} {g : Glyph} (hblank : Text.isBlank g.toChar) :
    Skipped file before [g] after []
  | lineComment {before body after : Source} (hbody : newline ∉ body)
    (hafter : ∀ g ∈ after.head?, g = newline) :
    Skipped file before (.char '/' :: .char '/' :: body) after []
  | blockComment {before text after : Source} (htext : IsBlockComment text) :
    Skipped file before text after []
  | alien {before after : Source} {g : Glyph} (halien : IsAlien g) :
    Skipped file before [g] after
      [⟨alienCode g, (Position.past before).inFile file, [("char", .text (Source.toString [g]))]⟩]

/-- The text after `before` is made of lexemes and of stretches that are none, without a gap. At
most one comment is not closed, and it reaches to the end. -/
inductive Layout (file : String) : (before text : Source) → List Token → Report → Prop
  | finish {before : Source} :
    Layout file before [] [⟨.endOfFile, (Position.past before).inFile file⟩] []
  | openComment {before text : Source} (htext : IsOpenComment text) :
    Layout file before text [⟨.endOfFile, (Position.past (before ++ text)).inFile file⟩]
      [⟨.unterminatedComment, (Position.past before).inFile file, []⟩]
  | skip {before text after : Source} {tokens : List Token} {report rest : Report}
    (htext : Skipped file before text after report)
    (hafter : Layout file (before ++ text) after tokens rest) :
    Layout file before (text ++ after) tokens (report ++ rest)
  | token {before text after : Source} {l : Lexeme} {tokens : List Token} {report : Report}
    (htext : l.Spelled text) (hlongest : IsLongest text after)
    (hcomment : ¬StartsComment (text ++ after))
    (hafter : Layout file (before ++ text) after tokens report) :
    Layout file before (text ++ after) (⟨l, (Position.past before).inFile file⟩ :: tokens) report

namespace Piece

theorem not_continuesName_stray (b : UInt8) : continuesName (.stray b) = false := by
  have hchar : continuesName (.char '\uFFFD') = false := by decide +kernel
  exact hchar

theorem shown_eq_self {text : Source} (h : ∀ g ∈ text, continuesName g) : text.shown = text := by
  refine (List.map_congr_left fun g hg => ?_).trans (List.map_id _)
  cases g with
  | char => rfl
  | stray b => exact absurd (h _ hg) (by simp [not_continuesName_stray])

theorem continuesName_of_isAsciiDigit {g : Glyph} (h : isAsciiDigit g) : continuesName g := by
  simp only [isAsciiDigit] at h
  simp [continuesName, Text.isDecimalDigit, h]

theorem continuesName_of_startsName {g : Glyph} (h : startsName g) : continuesName g := by
  simp [continuesName, h]

end Piece

namespace Piece

theorem delimits_cons_cons {a b : Glyph} {rest : Source} :
    Delimits (a :: b :: rest) ↔
      (a.toChar = '/' ∧ b.toChar = '*') ∨ (a.toChar = '*' ∧ b.toChar = '/') := by
  have hiff : ∀ {g : Glyph} {c : Char}, c ≠ '\uFFFD' → (Glyph.char c = g ↔ g.toChar = c) :=
    fun hc => ⟨fun h => h ▸ rfl, fun h => (Glyph.eq_char h hc).symm⟩
  simp only [Delimits, List.cons_prefix_cons, List.nil_prefix, and_true]
  rw [hiff (by decide), hiff (by decide), hiff (by decide), hiff (by decide)]

theorem CommentTail.exists_cons {tail : Source} (h : CommentTail tail) :
    ∃ g rest, tail = g :: rest := by
  cases h <;> exact ⟨_, _, rfl⟩

/-- The end of a comment is found, and inside `outer + 1` more comments the search goes on after
it. -/
theorem CommentTail.closing? {tail : Source} (h : CommentTail tail) (outer : Nat)
    (after : Source) :
    closing? outer (tail ++ after) =
      match outer with
      | 0 => some (tail, after)
      | outer + 1 => (Piece.closing? outer after).map fun cut => (tail ++ cut.1, cut.2) := by
  induction h generalizing outer after with
  | close => cases outer <;> rfl
  | @nested inner rest hinner hrest ihinner ihrest =>
    have hopen : Piece.closing? outer (.char '/' :: .char '*' :: (inner ++ rest) ++ after) =
        (Piece.closing? (outer + 1) (inner ++ (rest ++ after))).map fun cut =>
          (.char '/' :: .char '*' :: cut.1, cut.2) := by
      rw [← List.append_assoc]
      rfl
    rw [hopen, ihinner, Option.map_map, ihrest]
    cases outer with
    | zero => rfl
    | succ outer => simp [Function.comp_def]
  | @plain g rest hplain hrest ih =>
    obtain ⟨b, rest, rfl⟩ := hrest.exists_cons
    rw [delimits_cons_cons, not_or] at hplain
    have hskip : Piece.closing? outer (g :: b :: rest ++ after) =
        (Piece.closing? outer (b :: rest ++ after)).map fun cut => (g :: cut.1, cut.2) := by
      simp only [List.cons_append, Piece.closing?, if_neg hplain.1, if_neg hplain.2]
    rw [hskip, ih]
    cases outer with
    | zero => rfl
    | succ outer => simp [Function.comp_def]

/-- The ends of `outer + 1` comments one after the other. -/
def CommentTails : (outer : Nat) → Source → Prop
  | 0, text => CommentTail text
  | outer + 1, text => ∃ tail rest, text = tail ++ rest ∧ CommentTail tail ∧ CommentTails outer rest

theorem CommentTails.split {outer : Nat} {text : Source} (h : CommentTails outer text) :
    ∃ tail rest, text = tail ++ rest ∧ CommentTail tail ∧
      ∀ tail', CommentTail tail' → CommentTails outer (tail' ++ rest) := by
  cases outer with
  | zero =>
    exact ⟨text, [], (List.append_nil text).symm, h, fun _ h' => (List.append_nil _).symm ▸ h'⟩
  | succ outer =>
    obtain ⟨tail, rest, rfl, htail, hrest⟩ := h
    exact ⟨tail, rest, rfl, htail, fun tail' h' => ⟨tail', rest, rfl, h', hrest⟩⟩

theorem commentTails_of_closing? {outer : Nat} {text body after : Source}
    (h : closing? outer text = some (body, after)) : CommentTails outer body := by
  fun_induction closing? outer text generalizing body after with
  | case1 outer a b rest hopen ih =>
    obtain ⟨⟨body, after⟩, hc, heq⟩ := Option.map_eq_some_iff.1 h
    cases heq
    obtain ⟨inner, rest, rfl, hinner, hrest⟩ := ih hc
    obtain ⟨tail, rest, rfl, htail, hback⟩ := hrest.split
    rw [Glyph.eq_char hopen.1 (by decide), Glyph.eq_char hopen.2 (by decide)]
    have hback := hback _ (.nested hinner htail)
    simpa using hback
  | case2 a b rest hopen hclose =>
    cases h
    rw [Glyph.eq_char hclose.1 (by decide), Glyph.eq_char hclose.2 (by decide)]
    exact CommentTail.close
  | case3 a b rest hopen hclose outer ih =>
    obtain ⟨⟨body, after⟩, hc, heq⟩ := Option.map_eq_some_iff.1 h
    cases heq
    rw [Glyph.eq_char hclose.1 (by decide), Glyph.eq_char hclose.2 (by decide)]
    exact ⟨_, body, rfl, .close, ih hc⟩
  | case4 outer a b rest hopen hclose ih =>
    obtain ⟨⟨body, after⟩, hc, heq⟩ := Option.map_eq_some_iff.1 h
    cases heq
    obtain ⟨tail, rest', rfl, htail, hback⟩ := (ih hc).split
    obtain ⟨b', tail, rfl⟩ := htail.exists_cons
    obtain ⟨rfl, -⟩ := List.cons.inj (append_of_closing? hc)
    have hplain : ¬Delimits (a :: b' :: tail) := by
      rw [delimits_cons_cons, not_or]
      exact ⟨hopen, hclose⟩
    exact hback _ (.plain hplain htail)
  | case5 => cases h

theorem isBlockComment_of_closing? {body inner after : Source}
    (h : closing? 0 body = some (inner, after)) :
    IsBlockComment (.char '/' :: .char '*' :: inner) :=
  ⟨inner, rfl, commentTails_of_closing? h⟩

/-- A comment whose end is not found has none. -/
theorem isOpenComment_of_closing? {body : Source} (h : closing? 0 body = none) :
    IsOpenComment (.char '/' :: .char '*' :: body) := by
  refine ⟨⟨body, rfl⟩, ?_⟩
  rintro _ ⟨tail, rfl, htail⟩ ⟨after, hafter⟩
  have hbody : tail ++ after = body := by simpa using hafter
  have hfound := htail.closing? 0 after
  rw [hbody, h] at hfound
  cases hfound

end Piece

/-- A lexeme has one spelling. -/
theorem Lexeme.Spelled.eq_source {l : Lexeme} {text : Source} (h : l.Spelled text) :
    text = l.source := by
  cases h with
  | keyword | mark => rfl
  | integer _ hall =>
    rw [source, spelling, Source.ofString_toString,
      shown_eq_self fun g hg => continuesName_of_isAsciiDigit (hall g hg)]
  | identifier hstart hall _ =>
    rw [source, spelling, Source.ofString_toString, shown_eq_self]
    exact List.forall_mem_cons.2 ⟨continuesName_of_startsName hstart, hall⟩

namespace Keyword

theorem mem_all (k : Keyword) : k ∈ all := by cases k <;> decide

theorem ofSpelling?_eq_some {name : String} {k : Keyword} (h : ofSpelling? name = some k) :
    k.spelling = name := by
  have hfound := List.find?_some h
  exact beq_iff_eq.1 hfound

theorem ofSpelling?_eq_none {name : String} (h : ofSpelling? name = none) (k : Keyword) :
    k.spelling ≠ name := by
  have hmiss := List.find?_eq_none.1 h k (mem_all k)
  simpa using hmiss

theorem continuesName_of_mem (k : Keyword) {g : Glyph} (hg : g ∈ Source.ofString k.spelling) :
    continuesName g := by
  have hall : all.all fun k => (Source.ofString k.spelling).all continuesName := by decide +kernel
  exact List.all_eq_true.1 (List.all_eq_true.1 hall k (mem_all k)) g hg

theorem startsName_head (k : Keyword) {g : Glyph} {tail : Source}
    (h : Source.ofString k.spelling = g :: tail) : startsName g := by
  have hall : all.all fun k => (Source.ofString k.spelling).head?.all startsName := by
    decide +kernel
  have hk := List.all_eq_true.1 hall k (mem_all k)
  rwa [h] at hk

end Keyword

namespace Mark

theorem mem_all (m : Mark) : m ∈ all := by cases m <;> decide

theorem continuesName_of_mem (m : Mark) {g : Glyph} (hg : g ∈ Source.ofString m.spelling) :
    continuesName g = false := by
  have hall : all.all fun m => (Source.ofString m.spelling).all fun g => !continuesName g := by
    decide +kernel
  have hm := List.all_eq_true.1 (List.all_eq_true.1 hall m (mem_all m)) g hg
  simpa using hm

theorem source_of_ofChar? {c : Char} {m : Mark} (h : ofChar? c = some m) :
    Source.ofString m.spelling = [.char c] := by
  unfold ofChar? at h
  split at h <;> cases h <;> rfl

theorem source_of_withEqual? {m longer : Mark} (h : m.withEqual? = some longer) :
    Source.ofString longer.spelling = Source.ofString m.spelling ++ [.char '='] := by
  cases m <;> cases h <;> rfl

theorem withEqual?_eq_none {m longer : Mark} (h : m.withEqual? = some longer) :
    longer.withEqual? = none ∧ longer ≠ .slash := by
  cases m <;> cases h <;> decide

/-- A mark is a character that is one, and an `=` may follow it. -/
theorem exists_ofChar? (m : Mark) :
    ∃ c short, ofChar? c = some short ∧ (m = short ∨ short.withEqual? = some m) := by
  have hall : all.all fun m => m.spelling.toList.head?.any fun c =>
      (ofChar? c).any fun short => m == short || short.withEqual? == some m := by
    decide +kernel
  have hm := List.all_eq_true.1 hall m (mem_all m)
  simp only [Option.any_eq_true, Bool.or_eq_true, beq_iff_eq] at hm
  obtain ⟨c, -, short, hshort, heither⟩ := hm
  exact ⟨c, short, hshort, heither⟩

/-- Only an `=` makes a mark of another one. -/
theorem withEqual?_of_append {m longer : Mark} {g : Glyph} {more : Source}
    (h : Source.ofString longer.spelling = Source.ofString m.spelling ++ g :: more) :
    m.withEqual? = some longer ∧ g = .char '=' := by
  have hall : all.all fun m => all.all fun longer =>
      !(Source.ofString m.spelling).isPrefixOf (Source.ofString longer.spelling) || m == longer ||
        m.withEqual? == some longer := by
    decide +kernel
  have hpair := List.all_eq_true.1 (List.all_eq_true.1 hall m (mem_all m)) longer (mem_all longer)
  have hextends : (Source.ofString m.spelling).isPrefixOf (Source.ofString longer.spelling) := by
    rw [h]
    exact List.isPrefixOf_iff_prefix.2 ⟨_, rfl⟩
  simp only [hextends, Bool.not_true, Bool.false_or, Bool.or_eq_true, beq_iff_eq] at hpair
  rcases hpair with rfl | hlonger
  · simp at h
  · rw [source_of_withEqual? hlonger, List.append_cancel_left_eq] at h
    exact ⟨hlonger, (List.cons.inj h).1.symm⟩

end Mark

namespace Piece

theorem not_startsName_of_isAsciiDigit {g : Glyph} (h : isAsciiDigit g) :
    startsName g = false := by
  have hbounds : 48 ≤ g.toChar.toNat ∧ g.toChar.toNat ≤ 57 := by
    simpa [isAsciiDigit, Char.isDigit, UInt32.le_iff_toNat_le] using h
  have hunderscore : g.toChar ≠ '_' := by
    intro hg
    rw [hg] at hbounds
    exact absurd hbounds (by decide)
  have halpha : g.toChar.isAlpha = false := by
    have hcases : g.toChar.isAlpha = (decide (65 ≤ g.toChar.val ∧ g.toChar.val ≤ 90) ||
        (decide (97 ≤ g.toChar.val) && decide (g.toChar.val ≤ 122))) := rfl
    simp only [hcases, UInt32.le_iff_toNat_le, Bool.or_eq_false_iff, Bool.and_eq_false_iff,
      decide_eq_false_iff_not]
    change ¬(65 ≤ g.toChar.toNat ∧ g.toChar.toNat ≤ 90) ∧
      (¬97 ≤ g.toChar.toNat ∨ ¬g.toChar.toNat ≤ 122)
    omega
  simp only [startsName, Text.isLetter, halpha, Bool.false_or, Bool.or_eq_false_iff,
    beq_eq_false_iff_ne, Bool.and_eq_false_iff, decide_eq_false_iff_not]
  exact ⟨hunderscore, .inl (by omega)⟩

end Piece

namespace Lexeme

variable {l : Lexeme} {text after : Source}

theorem Spelled.ne_nil (h : l.Spelled text) : text ≠ [] := by
  cases h with
  | integer hne => exact hne
  | keyword k => cases k <;> decide
  | identifier => simp
  | mark m => cases m <;> decide

/-- A lexeme that is no mark is made of the glyphs that names are made of. -/
theorem Spelled.continuesName (h : l.Spelled text) (hmark : ∀ m, l ≠ .mark m) {g : Glyph}
    (hg : g ∈ text) : continuesName g := by
  cases h with
  | integer _ hall => exact continuesName_of_isAsciiDigit (hall g hg)
  | keyword k => exact k.continuesName_of_mem hg
  | identifier hstart hall =>
    rcases List.mem_cons.1 hg with rfl | hg
    · exact continuesName_of_startsName hstart
    · exact hall g hg
  | mark m => exact absurd rfl (hmark m)

/-- Lexemes that begin alike are both marks or both none. -/
theorem Spelled.mark_of_append {m : Mark} (h : l.Spelled (Source.ofString m.spelling ++ after)) :
    ∃ longer, l = .mark longer := by
  by_contra hnone
  have hmark := not_exists.1 hnone
  obtain ⟨g, hg⟩ := List.exists_mem_of_ne_nil _ (Spelled.mark m).ne_nil
  have hno := m.continuesName_of_mem hg
  rw [h.continuesName hmark (List.mem_append_left _ hg)] at hno
  cases hno

/-- A lexeme that begins with a digit is a number. -/
theorem Spelled.isAsciiDigit {d : Glyph} (h : l.Spelled (d :: text)) (hd : isAsciiDigit d)
    {g : Glyph} (hg : g ∈ d :: text) : Piece.isAsciiDigit g := by
  have hname := not_startsName_of_isAsciiDigit hd
  generalize hwhole : d :: text = whole at h hg
  cases h with
  | integer _ hall => exact hall g hg
  | keyword k =>
    rw [k.startsName_head hwhole.symm] at hname
    cases hname
  | identifier hstart =>
    cases hwhole
    rw [hstart] at hname
    cases hname
  | mark m =>
    have hno := m.continuesName_of_mem (hwhole ▸ List.mem_cons_self)
    rw [continuesName_of_isAsciiDigit hd] at hno
    cases hno

/-- What goes on after a lexeme that is no mark goes on as a name does. -/
theorem Spelled.continuesName_of_append {l' : Lexeme} {g : Glyph} {more : Source}
    (h : l.Spelled text) (hmark : ∀ m, l ≠ .mark m) (h' : l'.Spelled (text ++ g :: more)) :
    Piece.continuesName g := by
  refine h'.continuesName ?_ (List.mem_append_right _ List.mem_cons_self)
  rintro m rfl
  obtain ⟨b, hb⟩ := List.exists_mem_of_ne_nil _ h.ne_nil
  have hsource : text ++ g :: more = Source.ofString m.spelling := h'.eq_source
  have hno := m.continuesName_of_mem (hsource ▸ List.mem_append_left _ hb)
  rw [h.continuesName hmark hb] at hno
  cases hno

/-- Where a glyph follows that is no part of the lexeme, no other lexeme goes on. -/
theorem Spelled.isLongest (h : l.Spelled text) (hends : l.EndsBefore after) :
    IsLongest text after := by
  rintro more hmore ⟨rest, rfl⟩ l' h'
  obtain ⟨g, more, rfl⟩ := List.exists_cons_of_ne_nil hmore
  have hg : l.partsFrom g := hends g rfl
  have hcontinues := fun hmark => h.continuesName_of_append hmark h'
  cases h with
  | mark m =>
    obtain ⟨longer, rfl⟩ := h'.mark_of_append
    obtain ⟨hlonger, rfl⟩ := Mark.withEqual?_of_append h'.eq_source.symm
    simp [partsFrom, hlonger, Glyph.toChar] at hg
  | integer hne hall =>
    obtain ⟨d, digits, rfl⟩ := List.exists_cons_of_ne_nil hne
    have hmem : g ∈ d :: digits ++ g :: more := List.mem_append_right _ List.mem_cons_self
    have hdigit := h'.isAsciiDigit (hall d List.mem_cons_self) hmem
    simp [partsFrom, hdigit] at hg
  | keyword | identifier => simp [partsFrom, hcontinues] at hg

/-- Where a glyph follows that is no part of the lexeme, the two start no comment. -/
theorem Spelled.not_startsComment (h : l.Spelled text) (hends : l.EndsBefore after) :
    ¬StartsComment (text ++ after) := by
  obtain ⟨m, rfl⟩ | hmark : (∃ m, l = .mark m) ∨ ∀ m, l ≠ .mark m := by
    by_cases hm : ∃ m, l = .mark m
    · exact .inl hm
    · exact .inr (not_exists.1 hm)
  · obtain ⟨c, short, hshort, hlonger⟩ := m.exists_ofChar?
    have hsource := Mark.source_of_ofChar? hshort
    have htext : text = Source.ofString m.spelling := h.eq_source
    rcases hlonger with rfl | hlonger
    · rw [htext, hsource]
      intro hcomment
      obtain ⟨g, rest, rfl⟩ : ∃ g rest, after = g :: rest := by
        cases after with
        | nil => simp [StartsComment] at hcomment
        | cons g rest => exact ⟨g, rest, rfl⟩
      have hg : (Lexeme.mark m).partsFrom g := hends g rfl
      simp only [StartsComment, List.cons_append, List.nil_append, List.cons_prefix_cons,
        Glyph.char.injEq, List.nil_prefix, and_true] at hcomment
      obtain rfl : '/' = c := by rcases hcomment with h | h <;> exact h.1
      cases hshort
      rcases hcomment with ⟨-, rfl⟩ | ⟨-, rfl⟩ <;> cases hg
    · rw [htext, Mark.source_of_withEqual? hlonger, hsource]
      simp [StartsComment]
  · obtain ⟨g, rest, rfl⟩ := List.exists_cons_of_ne_nil h.ne_nil
    intro hcomment
    have hslash : g = .char '/' := by
      rcases hcomment with h | h <;> exact (List.cons_prefix_cons.1 h).1.symm
    have hname := h.continuesName hmark List.mem_cons_self
    rw [hslash] at hname
    revert hname
    decide +kernel

end Lexeme

namespace Piece

variable {g : Glyph} {rest : Source}

theorem head?_dropWhile {p : Glyph → Bool} {text : Source} {b : Glyph}
    (h : b ∈ (text.dropWhile p).head?) : p b = false := by
  have hall := List.head?_dropWhile_not p text
  rw [Option.mem_def.1 h] at hall
  simpa using hall

theorem spelled_word {tail : Source} (hg : startsName g) (htail : ∀ b ∈ tail, continuesName b) :
    (word (g :: tail)).Spelled (g :: tail) := by
  have hall : ∀ b ∈ g :: tail, continuesName b :=
    List.forall_mem_cons.2 ⟨continuesName_of_startsName hg, htail⟩
  cases hword : Keyword.ofSpelling? (Source.toString (g :: tail)) with
  | some k =>
    have hsource : Source.ofString k.spelling = g :: tail := by
      rw [Keyword.ofSpelling?_eq_some hword, Source.ofString_toString, shown_eq_self hall]
    simp only [word, hword]
    rw [← hsource]
    exact .keyword k
  | none =>
    simp only [word, hword]
    exact .identifier hg htail (Keyword.ofSpelling?_eq_none hword)

/-- A mark that may not be longer ends where no comment starts. -/
theorem endsBefore_mark {m : Mark}
    (hcomment : m = .slash → begins '/' rest = false ∧ begins '*' rest = false)
    (hequal : ∀ e ∈ rest.head?, m.withEqual?.isSome → e.toChar ≠ '=') :
    (Lexeme.mark m).EndsBefore rest := by
  intro b hb
  simp only [Lexeme.partsFrom, Bool.and_eq_true, Bool.not_eq_true', Bool.and_eq_false_iff,
    beq_eq_false_iff_ne, Bool.or_eq_false_iff]
  refine ⟨?_, ?_⟩
  · cases hsome : m.withEqual?.isSome with
    | false => exact .inl rfl
    | true => exact .inr (hequal b hb hsome)
  · by_cases hm : m = .slash
    · obtain ⟨hline, hblock⟩ := hcomment hm
      obtain ⟨rest, rfl⟩ := List.head?_eq_some_iff.1 hb
      exact .inr ⟨beq_eq_false_iff_ne.1 hline, beq_eq_false_iff_ne.1 hblock⟩
    · exact .inl hm

/-- A mark takes in what it can, and starts no comment. -/
theorem spelled_ofSymbol {l : Lexeme} (h : (ofSymbol g rest).1.sort = .lexeme l)
    (hcomment : g.toChar = '/' → begins '/' rest = false ∧ begins '*' rest = false) :
    l.Spelled (ofSymbol g rest).1.text ∧ l.EndsBefore (ofSymbol g rest).2 := by
  unfold ofSymbol at h ⊢
  by_cases hunknown : g.toChar = '&' ∨ g.toChar = '|'
  · simp only [if_pos hunknown] at h
    cases h
  simp only [if_neg hunknown] at h ⊢
  cases hm : Mark.ofChar? g.toChar with
  | none =>
    simp only [hm] at h
    cases h
  | some m =>
    have hg : g = .char g.toChar := by
      cases g with
      | char => rfl
      | stray => cases hm
    have hsource : Source.ofString m.spelling = [g] := by rw [Mark.source_of_ofChar? hm, ← hg]
    have hslash : m = .slash → g.toChar = '/' := by
      rintro rfl
      have hchar := hsource.symm.trans (rfl : _ = [Glyph.char '/'])
      exact congrArg Glyph.toChar (List.cons.inj hchar).1
    have hspelled : (Lexeme.mark m).Spelled [g] := hsource ▸ .mark m
    have hshort := endsBefore_mark fun hm => hcomment (hslash hm)
    simp only [hm] at h ⊢
    cases hlonger : m.withEqual? with
    | none =>
      simp only [hlonger] at h ⊢
      cases h
      exact ⟨hspelled, hshort (by simp [hlonger])⟩
    | some longer =>
      simp only [hlonger] at h ⊢
      cases rest with
      | nil =>
        cases h
        exact ⟨hspelled, hshort (by simp)⟩
      | cons e rest =>
        by_cases heq : e.toChar = '='
        · simp only [if_pos heq] at h ⊢
          cases h
          have hlong : Source.ofString longer.spelling = [g, e] := by
            rw [Mark.source_of_withEqual? hlonger, hsource, Glyph.eq_char heq (by decide)]
            rfl
          refine ⟨hlong ▸ .mark longer, fun b _ => ?_⟩
          obtain ⟨hnone, hne⟩ := Mark.withEqual?_eq_none hlonger
          simp [Lexeme.partsFrom, hnone, hne]
        · simp only [if_neg heq] at h ⊢
          cases h
          refine ⟨hspelled, hshort fun b hb _ => ?_⟩
          cases hb
          exact heq

/-- A lexeme of the text is spelled by its piece and ends where the piece does. -/
theorem spelled_first {l : Lexeme} (h : (first g rest).1.sort = .lexeme l) :
    l.Spelled (first g rest).1.text ∧ l.EndsBefore (first g rest).2 := by
  unfold first at h ⊢
  by_cases hblank : Text.isBlank g.toChar
  · simp only [if_pos hblank] at h
    cases h
  simp only [if_neg hblank] at h ⊢
  by_cases hline : g.toChar = '/' ∧ begins '/' rest
  · simp only [if_pos hline] at h
    cases h
  simp only [if_neg hline] at h ⊢
  by_cases hopen : g.toChar = '/' ∧ begins '*' rest
  · simp only [if_pos hopen] at h
    split at h <;> cases h
  simp only [if_neg hopen] at h ⊢
  by_cases hdigit : isAsciiDigit g
  · simp only [if_pos hdigit] at h ⊢
    cases h
    have hall : ∀ b ∈ g :: rest.takeWhile isAsciiDigit, isAsciiDigit b :=
      List.forall_mem_cons.2 ⟨hdigit, fun b hb => List.mem_takeWhile_imp hb⟩
    refine ⟨.integer (List.cons_ne_nil _ _) hall, fun b hb => ?_⟩
    simp [Lexeme.partsFrom, head?_dropWhile hb]
  simp only [if_neg hdigit] at h ⊢
  by_cases hname : startsName g
  · simp only [if_pos hname] at h ⊢
    cases h
    refine ⟨spelled_word hname fun b hb => List.mem_takeWhile_imp hb, fun b hb => ?_⟩
    rw [partsFrom_word, head?_dropWhile hb]
    rfl
  simp only [if_neg hname] at h ⊢
  refine spelled_ofSymbol h fun hg => ?_
  exact ⟨Bool.eq_false_iff.2 fun hb => hline ⟨hg, hb⟩, Bool.eq_false_iff.2 fun hb => hopen ⟨hg, hb⟩⟩

theorem isAlien_of_ofChar? (hblank : Text.isBlank g.toChar = false)
    (hdigit : isAsciiDigit g = false) (hname : startsName g = false)
    (hmark : Mark.ofChar? g.toChar = none) : IsAlien g := by
  refine ⟨hblank, fun l tail h => ?_⟩
  generalize hwhole : g :: tail = whole at h
  cases h with
  | integer _ hall =>
    have hg := hall g (hwhole ▸ List.mem_cons_self)
    rw [hdigit] at hg
    cases hg
  | keyword k =>
    rw [k.startsName_head hwhole.symm] at hname
    cases hname
  | identifier hstart =>
    cases hwhole
    rw [hstart] at hname
    cases hname
  | mark m =>
    obtain ⟨c, short, hshort, hlonger⟩ := m.exists_ofChar?
    have hc : g = .char c := by
      rcases hlonger with rfl | hlonger
      · rw [Mark.source_of_ofChar? hshort] at hwhole
        exact (List.cons.inj hwhole).1
      · rw [Mark.source_of_withEqual? hlonger, Mark.source_of_ofChar? hshort] at hwhole
        exact (List.cons.inj hwhole).1
    rw [hc] at hmark
    cases hmark.symm.trans hshort

end Piece

end Ember
