import Ember.Proofs.Format.Statement
import Ember.Proofs.Lexer.Readable
import Ember.Proofs.Lexer.Stream
import Mathlib.Data.List.Chain

namespace Ember

def Mark.isPunctuation : Mark → Bool
  | .parenOpen | .parenClose | .braceOpen | .braceClose | .comma | .colon | .semicolon => true
  | _ => false

namespace Lexeme

theorem source_ne_nil {l : Lexeme} (h : l.Readable) : l.source ≠ [] := by
  intro hnil
  rw [Readable, hnil] at h
  cases h

theorem EndsBefore.append {l : Lexeme} {text : Source} (h : l.EndsBefore text) (hne : text ≠ [])
    (more : Source) : l.EndsBefore (text ++ more) := by
  cases text with
  | nil => exact absurd rfl hne
  | cons g rest => exact h

theorem endsBefore_punctuation (l : Lexeme) {m : Mark} (h : m.isPunctuation) :
    l.EndsBefore (mark m).source := by
  have hdivider : ∃ c ∈ dividers, (mark m).source = [.char c] := by
    cases m with
    | parenOpen => exact ⟨'(', by decide, rfl⟩
    | parenClose => exact ⟨')', by decide, rfl⟩
    | braceOpen => exact ⟨'\x7b', by decide, rfl⟩
    | braceClose => exact ⟨'\x7d', by decide, rfl⟩
    | comma => exact ⟨',', by decide, rfl⟩
    | colon => exact ⟨':', by decide, rfl⟩
    | semicolon => exact ⟨';', by decide, rfl⟩
    | _ => cases h
  obtain ⟨c, hc, hsource⟩ := hdivider
  rw [hsource]
  exact endsBefore_cons (l.partsFrom_divider hc) []

theorem punctuation_endsBefore {m : Mark} (h : m.isPunctuation) (text : Source) :
    (mark m).EndsBefore text := by
  intro g _
  cases m <;> first | rfl | cases h

/-- Only marks begin with the character that marks take in. -/
theorem toChar_ne_equal {l : Lexeme} (h : l.Readable) (hmark : ∀ m, l ≠ .mark m) {g : Glyph}
    (hg : g ∈ l.source.head?) : g.toChar ≠ '=' := by
  intro hequal
  obtain ⟨tail, hsource⟩ := List.head?_eq_some_iff.1 hg
  rw [Readable, hsource, Piece.split_cons] at h
  obtain ⟨hfirst, _⟩ := List.cons.inj h
  have hsymbol : Piece.first g tail = Piece.ofSymbol g tail := by
    have hblank : Text.isBlank '=' = false := by decide
    have hdigit : Piece.isAsciiDigit g = false := by simp [Piece.isAsciiDigit, hequal]
    have hname : Piece.startsName g = false := by
      simp only [Piece.startsName, hequal]
      decide +kernel
    simp [Piece.first, hequal, hblank, hdigit, hname]
  rw [hsymbol, Piece.ofSymbol] at hfirst
  simp only [hequal, Mark.ofChar?, Mark.withEqual?] at hfirst
  have hexists : ∃ m, l = .mark m := by
    grind
  obtain ⟨m, hm⟩ := hexists
  exact hmark m hm

end Lexeme

namespace Fragment

open Piece (split)

/-- A fragment that a source text can hold, with no integer out of range. -/
def Sound : Fragment → Prop
  | lexeme l => l.Readable ∧
      ∀ digits, l = .integer digits → Grammar.numeral digits < 18446744073709551616
  | verbatim _ => False
  | space | newline _ => True

theorem sound_mark (m : Mark) : (mark m).Sound := ⟨Lexeme.readable_mark m, nofun⟩

theorem sound_keyword (k : Keyword) : (keyword k).Sound := ⟨Lexeme.readable_keyword k, nofun⟩

theorem sound_name {n : String} (h : IsName n) : (name n).Sound := ⟨h, nofun⟩

/-- The first fragment ends where the second one begins. -/
def Apart : Fragment → Fragment → Prop
  | lexeme l, lexeme l' => l.EndsBefore l'.source
  | _, _ => True

/-- A row of fragments that is read as its lexemes. -/
structure Legible (fs : List Fragment) : Prop where
  sound : ∀ f ∈ fs, f.Sound
  apart : fs.IsChain Apart

/-- White space and punctuation may stand beside every fragment. -/
def isDivider : Fragment → Bool
  | space | newline _ => true
  | lexeme (.mark m) => m.isPunctuation
  | _ => false

theorem isDivider_of_isBlank {f : Fragment} (h : f.isBlank) : f.isDivider := by
  cases f with
  | space | newline => rfl
  | lexeme | verbatim => cases h

theorem sound_of_isDivider {f : Fragment} (h : f.isDivider) : f.Sound := by
  cases f with
  | space | newline => trivial
  | verbatim => cases h
  | lexeme l =>
    cases l with
    | mark m => exact sound_mark m
    | endOfFile | identifier | integer | keyword => cases h

theorem apart_of_isDivider {f f' : Fragment} (h : f.isDivider ∨ f'.isDivider) : Apart f f' := by
  cases f with
  | space | newline | verbatim => trivial
  | lexeme l =>
    cases f' with
    | space | newline | verbatim => trivial
    | lexeme l' =>
      rcases h with h | h
      · cases l with
        | mark m => exact Lexeme.punctuation_endsBefore h _
        | endOfFile | identifier | integer | keyword => cases h
      · cases l' with
        | mark m => exact l.endsBefore_punctuation h
        | endOfFile | identifier | integer | keyword => cases h

/-- Tokens of the lexemes of a legible row are in range. -/
theorem Legible.inRange {fs : List Fragment} (h : Legible fs) {ts : List Token}
    (hts : ts.map (·.lexeme) = lexemes fs) : ∀ t ∈ ts, t.InRange := by
  intro t ht digits hdigits
  have hmem : t.lexeme ∈ lexemes fs := by
    rw [← hts]
    exact List.mem_map_of_mem ht
  obtain ⟨f, hf, hlexeme⟩ := List.mem_filterMap.1 hmem
  have hsound := h.sound f hf
  cases f with
  | lexeme l =>
    cases hlexeme
    exact hsound.2 digits hdigits
  | verbatim | space | newline => cases hlexeme

theorem ofString_renderAll_cons (f : Fragment) (rest : List Fragment) :
    Source.ofString (renderAll (f :: rest)) =
      Source.ofString f.render ++ Source.ofString (renderAll rest) := by
  rw [renderAll_cons, Source.ofString_append]

/-- In a row that is legible each lexeme ends before the text of what follows. -/
theorem Legible.endsBefore {l : Lexeme} {rest : List Fragment}
    (h : Legible (lexeme l :: rest)) : l.EndsBefore (Source.ofString (renderAll rest)) := by
  cases rest with
  | nil => exact l.endsBefore_nil
  | cons f rest =>
    have hsound := h.sound f (by simp)
    have hapart := (List.isChain_cons_cons.1 h.apart).1
    rw [ofString_renderAll_cons]
    cases f with
    | lexeme l' => exact Lexeme.EndsBefore.append hapart (Lexeme.source_ne_nil hsound.1) _
    | verbatim => cases hsound
    | space => exact Lexeme.endsBefore_cons (l.partsFrom_divider (by decide)) _
    | newline indent =>
      rw [render, Source.ofString_append]
      exact Lexeme.endsBefore_cons (l.partsFrom_divider (by decide)) _

theorem split_blanks {blanks : Source} (h : ∀ g ∈ blanks, Text.isBlank g.toChar) (rest : Source) :
    split (blanks ++ rest) = (blanks.map fun g => ⟨.blank, [g]⟩) ++ split rest := by
  induction blanks with
  | nil => rfl
  | cons g blanks ih =>
    obtain ⟨hg, hblanks⟩ := List.forall_mem_cons.1 h
    rw [List.cons_append, Piece.split_blank hg, ih hblanks]
    rfl

theorem isBlank_of_mem_render {f : Fragment} (hf : f.isBlank) :
    ∀ g ∈ Source.ofString f.render, Text.isBlank g.toChar := by
  intro g hg
  obtain ⟨c, hc, rfl⟩ := List.mem_map.1 hg
  cases f with
  | lexeme | verbatim => cases hf
  | space =>
    have hspace : c = ' ' := by simpa [render] using hc
    rw [hspace]
    decide
  | newline indent =>
    have hblank : c = '\n' ∨ c = ' ' := by
      simp only [render, indentation, String.toList_append, String.toList_ofList, List.mem_append,
        List.mem_replicate] at hc
      rcases hc with hc | ⟨_, hc⟩
      · exact .inl (by simpa using hc)
      · exact .inr hc
    rcases hblank with rfl | rfl <;> decide

/-- A legible row is read as its lexemes. -/
theorem Legible.split_renderAll {fs : List Fragment} (h : Legible fs) :
    (split (Source.ofString (renderAll fs))).filterMap Piece.lexeme? = lexemes fs ∧
      ∀ piece ∈ split (Source.ofString (renderAll fs)), piece.isSound := by
  induction fs with
  | nil => exact ⟨rfl, by simp [Source.ofString]⟩
  | cons f rest ih =>
    obtain ⟨hf, hsound⟩ := List.forall_mem_cons.1 h.sound
    obtain ⟨hlexemes, hpieces⟩ := ih ⟨hsound, h.apart.tail⟩
    rw [ofString_renderAll_cons]
    cases hblank : f.isBlank with
    | true =>
      rw [split_blanks (isBlank_of_mem_render hblank), lexemes_blank hblank, List.filterMap_append,
        hlexemes, List.filterMap_eq_nil_iff.2 (List.forall_mem_map.2 fun _ _ => rfl)]
      exact ⟨rfl, List.forall_mem_append.2 ⟨List.forall_mem_map.2 fun _ _ => rfl, hpieces⟩⟩
    | false =>
      cases f with
      | lexeme l =>
        have hsplit := Piece.split_source_append hf.1 h.endsBefore
        rw [Lexeme.source] at hsplit
        rw [render, hsplit]
        exact ⟨congrArg (l :: ·) hlexemes, List.forall_mem_cons.2 ⟨rfl, hpieces⟩⟩
      | verbatim => cases hf
      | space | newline => cases hblank

namespace Legible

variable {a b : List Fragment} {f : Fragment}

theorem nil : Legible [] := ⟨by simp, .nil⟩

theorem single (hf : f.Sound) : Legible [f] := ⟨by simpa using hf, .singleton f⟩

theorem mark (m : Mark) : Legible [Fragment.mark m] := .single (sound_mark m)

theorem keyword (k : Keyword) : Legible [Fragment.keyword k] := .single (sound_keyword k)

theorem named {n : String} (h : IsName n) : Legible [Fragment.name n] := .single (sound_name h)

theorem datatype {type : Datatype} (h : type.keyword?.isSome) :
    Legible [Fragment.datatype type] := by
  obtain ⟨k, hk⟩ := Option.isSome_iff_exists.1 h
  simp only [Fragment.datatype, hk]
  exact keyword k

theorem append (ha : Legible a) (hb : Legible b) (hdivider : ∀ f ∈ b.head?, f.isDivider) :
    Legible (a ++ b) := by
  refine ⟨List.forall_mem_append.2 ⟨ha.sound, hb.sound⟩, ?_⟩
  refine List.isChain_append.2 ⟨ha.apart, hb.apart, fun x _ y hy => ?_⟩
  exact apart_of_isDivider (.inr (hdivider y hy))

/-- A divider may stand before every legible row. -/
theorem start (hb : Legible b) (f : Fragment) (hf : f.isDivider) : Legible (f :: b) := by
  refine ⟨List.forall_mem_cons.2 ⟨sound_of_isDivider hf, hb.sound⟩, ?_⟩
  exact List.isChain_cons.2 ⟨fun y _ => apart_of_isDivider (.inl hf), hb.apart⟩

/-- A divider may stand between any two legible rows. -/
theorem cut (ha : Legible a) (f : Fragment) (hf : f.isDivider) (hb : Legible b) :
    Legible (a ++ f :: b) :=
  ha.append (hb.start f hf) (by simpa using hf)

theorem spaced (ha : Legible a) (hb : Legible b) : Legible (a ++ space :: b) :=
  ha.cut space rfl hb

/-- Punctuation may end every legible row. -/
theorem stop (ha : Legible a) (f : Fragment) (hf : f.isDivider) : Legible (a ++ [f]) :=
  ha.cut f hf nil

theorem parens (ha : Legible a) : Legible (Fragment.parens a) :=
  (ha.stop (Fragment.mark .parenClose) rfl).start (Fragment.mark .parenOpen) rfl

theorem parensIf (needed : Bool) (ha : Legible a) : Legible (Fragment.parensIf needed a) := by
  unfold Fragment.parensIf
  split
  · exact ha.parens
  · exact ha

theorem commaSeparated {items : List (List Fragment)} (h : ∀ item ∈ items, Legible item) :
    Legible (Fragment.commaSeparated items) := by
  fun_induction Fragment.commaSeparated items with
  | case1 => exact .nil
  | case2 item => exact h item (by simp)
  | case3 item rest _ ih =>
    obtain ⟨hitem, hrest⟩ := List.forall_mem_cons.1 h
    exact hitem.cut (Fragment.mark .comma) rfl ((ih hrest).start space rfl)

theorem braces (indent : Nat) {lines : List (List Fragment)} (h : ∀ line ∈ lines, Legible line) :
    Legible (Fragment.braces indent lines) := by
  have hlines : Legible (lines.flatMap (newline (indent + 1) :: ·)) := by
    induction lines with
    | nil => exact .nil
    | cons line rest ih =>
      obtain ⟨hline, hrest⟩ := List.forall_mem_cons.1 h
      refine append (hline.start (newline (indent + 1)) rfl) (ih hrest) ?_
      cases rest <;> simp [isDivider]
  unfold Fragment.braces
  split
  · exact (nil.start (Fragment.mark .braceClose) rfl).start (Fragment.mark .braceOpen) rfl
  · exact (hlines.cut (newline indent) rfl (nil.start (Fragment.mark .braceClose) rfl)).start
      (Fragment.mark .braceOpen) rfl

end Legible

end Fragment

end Ember
