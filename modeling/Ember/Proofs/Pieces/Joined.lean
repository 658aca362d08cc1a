import Ember.Proofs.Lexer.Stream
import Ember.Proofs.Naming.Independence
import Ember.Proofs.Parser.Incomplete

namespace Ember

open Glyph (newline)

/-- Texts, each on lines of its own. -/
def Source.joined (sources : List Source) : Source := [newline].intercalate sources

theorem Source.joined_cons (source next : Source) (rest : List Source) :
    joined (source :: next :: rest) = source ++ newline :: joined (next :: rest) := by
  simp [joined, List.intercalate]

namespace Piece

variable {file : String}

/-- A text without a problem ends with its last line, whatever stands below it. -/
theorem split_append_newline {text : Source} (h : ∀ piece ∈ split text, piece.isSound)
    (more : Source) :
    split (text ++ newline :: more) = split text ++ ⟨.blank, [newline]⟩ :: split more := by
  obtain ⟨pieces, tail, hsplit, hmore, -, htail⟩ := exists_open_tail text
  rcases htail with rfl | hopen
  · rw [hmore, hsplit, List.nil_append, split_blank rfl]
    simp
  · rcases IsOpenTail.split_eq (.inr hopen) with hnil | hcomment
    · obtain ⟨a, b, body, rfl, -⟩ := hopen
      rw [split_cons] at hnil
      cases hnil
    · have hsound : Piece.isSound ⟨.openComment, tail⟩ := h _ (by simp [hsplit, hcomment])
      cases hsound

/-- The pieces of joined texts are those of the texts, wherever the first one stands. -/
theorem tokens_joined {sources : List Source}
    (hsound : ∀ source ∈ sources, ∀ piece ∈ split source, piece.isSound) (p : Position) :
    (∀ piece ∈ split (Source.joined sources), piece.isSound) ∧
      ∃ segments : List (List Token),
        tokens file p (split (Source.joined sources)) = segments.flatten ∧
        List.Forall₂ (fun segment source =>
          segment.map (·.lexeme) = (split source).filterMap lexeme?) segments sources := by
  induction sources generalizing p with
  | nil => exact ⟨by simp [Source.joined, List.intercalate], [], rfl, .nil⟩
  | cons source rest ih =>
    obtain ⟨hfirst, hrest⟩ := List.forall_mem_cons.1 hsound
    cases rest with
    | nil =>
      have hself : Source.joined [source] = source := by simp [Source.joined, List.intercalate]
      rw [hself]
      exact ⟨hfirst, [tokens file p (split source)], by simp,
        .cons (lexemes_tokens file p _) .nil⟩
    | cons next rest =>
      -- The line between the first text and the others is a blank.
      rw [Source.joined_cons, split_append_newline hfirst]
      obtain ⟨hothers, segments, htokens, hsegments⟩ :=
        ih hrest ((p.after ((split source).flatMap text)).after [newline])
      refine ⟨?_, tokens file p (split source) :: segments, ?_,
        .cons (lexemes_tokens file p _) hsegments⟩
      · rw [List.forall_mem_append, List.forall_mem_cons]
        exact ⟨hfirst, rfl, hothers⟩
      · rw [tokens_append, tokens_cons, htokens]
        rfl

end Piece

namespace Grammar.Module

/-- The declarations of one derivation behind those of another. -/
def append (m : Module) : Module → Module
  | nothing => m
  | another before last => another (m.append before) last

variable (m n : Module)

theorem tokens_append : (m.append n).tokens = m.tokens ++ n.tokens := by
  induction n with
  | nothing => simp [append, tokens]
  | another before last ih => simp [append, tokens, ih]

theorem build_append (t : SymbolTable) :
    (m.append n).build t =
      ((m.build t).1 ++ (n.build (m.build t).2).1, (n.build (m.build t).2).2) := by
  induction n with
  | nothing => simp [append, build]
  | another before last ih => simp [append, build, ih]

theorem depth_append : (m.append n).depth = max m.depth n.depth := by
  induction n with
  | nothing => simp [append, depth]
  | another before last ih => simp [append, depth, ih, Nat.max_assoc]

theorem nearestElse_append (hm : m.NearestElse) (hn : n.NearestElse) :
    (m.append n).NearestElse := by
  induction n with
  | nothing => exact hm
  | another before last ih => exact ⟨ih hn.1, hn.2⟩

end Grammar.Module

namespace TokenStream

open Ember.Parser

variable {room : Nat} {file : String} {table : SymbolTable}

/-- What is accepted in parts is accepted as a whole: the tokens of one program and then those of
another, which is read with the names of the first. -/
theorem parseWithin_append {left right whole : TokenStream} (hleft : (State.start left table).Real)
    (hright : (State.start right table).Real)
    (hclean : (left.parseWithin room file table).report = [])
    (hclean' : (right.parseWithin room file (left.parseWithin room file table).table).report = [])
    (htokens : whole.tokens = left.tokens ++ right.tokens) (hreport : whole.report = []) :
    let first := left.parseWithin room file table
    let second := right.parseWithin room file first.table
    whole.parseWithin room file table =
      ⟨⟨file, first.program.body ++ second.program.body⟩, second.table, []⟩ := by
  intro first second
  obtain ⟨m, hm, helse, hdepth, hrange, hbuild⟩ := derivation_of_clean hleft hclean
  obtain ⟨n, hn, helse', hdepth', hrange', hbuild'⟩ :=
    @derivation_of_clean room file right first.table hright hclean'
  have hall : (m.append n).tokens = whole.tokens := by rw [m.tokens_append, hm, hn, htokens]
  have hlevels : (m.append n).depth ≤ room := by
    rw [m.depth_append]
    exact Nat.max_le.2 ⟨hdepth, hdepth'⟩
  have hinRange : ∀ t ∈ whole.tokens, t.InRange := by
    rw [htokens]
    exact List.forall_mem_append.2 ⟨hrange, hrange'⟩
  rw [parseWithin_of_derivation file table (m.append n) hall
    (m.nearestElse_append n helse helse') hlevels hinRange hreport, m.build_append, hbuild, hbuild']

/-- Names that are entered stay. -/
theorem keeps_parseWithin (room : Nat) (file : String) (stream : TokenStream)
    (table : SymbolTable) : table.Keeps (stream.parseWithin room file table).table := by
  have htokens : List.Forall₂ (Token.Alike Eq) stream.tokens stream.tokens :=
    Token.alike_self stream.tokens
  obtain ⟨-, ⟨hkeeps, -⟩, -⟩ := @alike_parseWithin _ Eq room file file stream stream table table
    (SymbolTable.Keeps.lasting table) htokens rfl ⟨.refl table, .refl table⟩
  exact hkeeps

/-- Of two streams of the same lexemes, both are programs or none is. -/
theorem clean_iff_of_alike {q : Location → Location → Prop} {stream stream' : TokenStream}
    {table' : SymbolTable} (htokens : List.Forall₂ (Token.Alike q) stream.tokens stream'.tokens)
    (hfinish : q stream.finish stream'.finish) (hreport : stream.report = [])
    (hreport' : stream'.report = []) :
    let parsed := stream.parseWithin room file table
    let parsed' := stream'.parseWithin room file table'
    (parsed.report = [] ↔ parsed'.report = []) ∧
      Stmt.AlikeAll (parsed.table.SameName parsed'.table) q parsed.program.body
        parsed'.program.body := by
  obtain ⟨hbody, -, ds, ds', hds, hreports, hreports'⟩ :=
    @alike_parseWithin (fun _ _ => True) q room file file stream stream' table table'
      ⟨fun _ _ _ => trivial, fun _ _ _ _ _ => trivial⟩ htokens hfinish trivial
  refine ⟨?_, hbody⟩
  rw [hreports, hreports', Report.sorted_eq_nil, Report.sorted_eq_nil, hreport, hreport',
    List.nil_append, List.nil_append, ← List.length_eq_zero_iff, ← List.length_eq_zero_iff,
    hds.length_eq]

theorem forall₂_lexemes {tokens tokens' : List Token}
    (h : tokens.map (·.lexeme) = tokens'.map (·.lexeme)) :
    List.Forall₂ (fun t t' : Token => t.lexeme = t'.lexeme) tokens tokens' := by
  have heq : List.Forall₂ Eq (tokens.map (·.lexeme)) (tokens'.map (·.lexeme)) := by
    rw [List.forall₂_eq_eq_eq, h]
  rwa [List.forall₂_map_left_iff, List.forall₂_map_right_iff] at heq

/-- Places do not matter for what is read, nor do the ids of names. -/
theorem alike_of_lexemes {stream stream' : TokenStream} {table' : SymbolTable}
    (h : stream.tokens.map (·.lexeme) = stream'.tokens.map (·.lexeme))
    (hreport : stream.report = [])
    (hclean : (stream'.parseWithin room file table').report = []) :
    let parsed := stream.parseWithin room file table
    let parsed' := stream'.parseWithin room file table'
    parsed.report = [] ∧
      Stmt.AlikeAll (parsed'.table.SameName parsed.table) (fun _ _ => True) parsed'.program.body
        parsed.program.body := by
  have htokens : List.Forall₂ (Token.Alike fun _ _ => True) stream'.tokens stream.tokens :=
    (forall₂_lexemes h.symm).imp fun _ _ hlexeme => ⟨hlexeme, trivial⟩
  obtain ⟨hiff, hbody⟩ := @clean_iff_of_alike room file table' _ stream' stream table htokens
    trivial (report_of_clean hclean) hreport
  exact ⟨hiff.1 hclean, hbody⟩

end TokenStream

namespace Program

open Ember.Parser

variable {file : String} {source : Source} {table : SymbolTable}

/-- The statements are those of the text, up to their places and ids: whatever table the text is
parsed into, they are the same by the names in the two tables. -/
def Renders (file : String) (table : SymbolTable) (body : List Stmt) (source : Source) : Prop :=
  ∀ other : SymbolTable,
    Stmt.AlikeAll ((Program.parse file source other).table.SameName table) (fun _ _ => True)
      (Program.parse file source other).program.body body

theorem Renders.mono {table' : SymbolTable} {body : List Stmt} (h : Renders file table body source)
    (hkeeps : table.Keeps table') : Renders file table' body source :=
  fun other => (h other).widen fun _ _ hsame => hsame.mono (.refl _) hkeeps

theorem report_parse (file : String) (source : Source) (table table' : SymbolTable) :
    (Program.parse file source table).report = (Program.parse file source table').report := by
  have hlasting : SymbolTable.Lasting fun _ _ => True :=
    ⟨fun _ _ _ => trivial, fun _ _ _ _ _ => trivial⟩
  exact (@alike_parse file source table table' _ hlasting trivial).1

/-- Segments of tokens that are programs, each up to the places of its tokens, are read one after
the other. -/
theorem parse_segments {stream : TokenStream} {segments : List (List Token)}
    {sources : List Source} (hreal : (State.start stream table).Real) (hreport : stream.report = [])
    (htokens : stream.tokens = segments.flatten)
    (hclean : ∀ source ∈ sources, (Program.parse file source .empty).report = [])
    (hsegments : List.Forall₂ (fun segment source =>
      segment.map (·.lexeme) = (TokenStream.ofSource file source).tokens.map (·.lexeme))
      segments sources) :
    let parsed := stream.parseWithin maxDepth file table
    parsed.report = [] ∧ ∃ sections : List (List Stmt), parsed.program.body = sections.flatten ∧
      List.Forall₂ (Renders file parsed.table) sections sources := by
  induction hsegments generalizing stream table with
  | nil =>
    obtain ⟨tokens, finish, report⟩ := stream
    cases htokens
    cases hreport
    exact ⟨rfl, [], rfl, .nil⟩
  | @cons segment source segments sources hsegment _ ih =>
    obtain ⟨hfirst, hrest⟩ := List.forall_mem_cons.1 hclean
    rw [List.flatten_cons] at htokens
    let left : TokenStream := ⟨segment, stream.finish, []⟩
    let right : TokenStream := ⟨segments.flatten, stream.finish, []⟩
    have hahead : ∀ t ∈ segment ++ segments.flatten, t.lexeme ≠ .endOfFile := by
      rw [← htokens]
      exact hreal
    obtain ⟨hleft, hright⟩ := List.forall_mem_append.1 hahead
    have halike := fun other => @TokenStream.alike_of_lexemes maxDepth file table left
      (TokenStream.ofSource file source) other hsegment rfl
      ((report_parse file source other .empty).trans hfirst)
    obtain ⟨hclean₁, -⟩ := halike .empty
    obtain ⟨hclean₂, sections, hsections, hall⟩ :=
      @ih (left.parseWithin maxDepth file table).table right hright rfl rfl hrest
    have hwhole := @TokenStream.parseWithin_append maxDepth file table left right stream hleft
      hright hclean₁ hclean₂ htokens hreport
    have hrenders : Renders file (left.parseWithin maxDepth file table).table
        (left.parseWithin maxDepth file table).program.body source := fun other => (halike other).2
    rw [hwhole]
    refine ⟨rfl, _ :: sections, congrArg _ hsections, .cons (hrenders.mono ?_) hall⟩
    exact TokenStream.keeps_parseWithin _ _ _ _

/-- Programs below each other are one program: that of their statements, in their order. -/
theorem parse_joined {sources : List Source}
    (hclean : ∀ source ∈ sources, (Program.parse file source .empty).report = [])
    (table : SymbolTable) :
    let parsed := Program.parse file (Source.joined sources) table
    parsed.report = [] ∧ ∃ sections : List (List Stmt), parsed.program.body = sections.flatten ∧
      List.Forall₂ (Renders file parsed.table) sections sources := by
  have hsound : ∀ source ∈ sources, ∀ piece ∈ Piece.split source, piece.isSound := by
    intro source hsource
    obtain ⟨body, s, hrun⟩ :=
      declarations_ok maxDepth (State.start (TokenStream.ofSource file source) .empty)
    have hreport := hclean source hsource
    rw [Program.parse, TokenStream.parse, TokenStream.parseWithin_of_ok hrun,
      Report.sorted_eq_nil, List.append_eq_nil_iff, TokenStream.report_ofSource] at hreport
    exact Piece.problems_eq_nil.1 hreport.1
  obtain ⟨hjoined, segments, htokens, hsegments⟩ := @Piece.tokens_joined file sources hsound .start
  refine parse_segments (TokenStream.real_start table) (Piece.problems_eq_nil.2 hjoined) htokens
    hclean (hsegments.imp fun segment source hsegment => ?_)
  rw [hsegment, TokenStream.tokens_ofSource, Piece.lexemes_tokens]

end Program

end Ember
