import Mathlib.Data.List.Flatten
import Ember.Proofs.Lexer.Lossless
import Ember.Proofs.Recovery.Steps

namespace Ember

open Grammar Ember.Parser

theorem Grammar.Module.exists_first (m : Module) (h : m.tokens ≠ []) :
    ∃ (d : Declaration) (rest : List Token), m.tokens = d.tokens ++ rest := by
  induction m with
  | nothing => exact absurd rfl h
  | another before last ih =>
    by_cases hbefore : before.tokens = []
    · exact ⟨last, [], by rw [tokens, hbefore, List.nil_append, List.append_nil]⟩
    · obtain ⟨d, rest, hd⟩ := ih hbefore
      exact ⟨d, rest ++ last.tokens, by rw [tokens, hd, List.append_assoc]⟩

/-- A part of the tokens of a text. -/
inductive Segment where
  | clean (tokens : List Token)
  | bad (tokens : List Token)
  | braces (tokens : List Token)

namespace Segment

variable {file : String} {g : Segment} {segments : List Segment} {table : SymbolTable}
  {body : List Stmt} {s : State}

def tokens : Segment → List Token
  | clean tokens | bad tokens | braces tokens => tokens

def isBraces : Segment → Bool
  | braces _ => true
  | _ => false

/-- The tokens of a segment that is a program. -/
def clean? : Segment → Option (List Token)
  | clean tokens => some tokens
  | _ => none

/-- A clean segment is a program of its own. A bad one is none; it ends with its only semicolon and
holds nothing by which a statement goes on behind one. -/
def Valid (file : String) : Segment → Prop
  | clean tokens => tokens ≠ [] ∧ ((TokenStream.alone tokens).parse file .empty).report = []
  | bad tokens => (∃ front loc, tokens = front ++ [⟨.mark .semicolon, loc⟩] ∧
      ∀ t ∈ front, t.lexeme ∉ Lexeme.linking) ∧
      ((TokenStream.alone tokens).parse file .empty).report ≠ []
  | braces tokens => tokens ≠ [] ∧ ∀ t ∈ tokens, t.lexeme = .mark .braceClose

/-- The segments that are reported: all bad ones, and the braces that stand neither directly behind
a bad one nor behind other braces. The flag says that such a segment comes before. -/
def reported : (after : Bool) → List Segment → List (List Token)
  | _, [] => []
  | _, clean _ :: rest => reported false rest
  | _, bad tokens :: rest => tokens :: reported true rest
  | true, braces _ :: rest => reported true rest
  | false, braces tokens :: rest => tokens :: reported true rest

/-- What is ahead of the parser before the segments: braces behind a segment that was given up are
dropped with it. -/
def ahead (after : Bool) (segments : List Segment) : List Token :=
  (if after then segments.dropWhile isBraces else segments).flatMap tokens

/-- No segment starts with an `else`, and none but a row of braces with a closing brace. -/
theorem Valid.exists_head (h : g.Valid file) (hreal : ∀ t ∈ g.tokens, t.lexeme ≠ .endOfFile) :
    ∃ t more, g.tokens = t :: more ∧ t.lexeme ≠ .keyword .elseKw ∧
      (g.isBraces = false → t.lexeme ≠ .mark .braceClose) := by
  cases g with
  | clean tokens =>
    obtain ⟨hne, hclean⟩ := h
    obtain ⟨m, hm, -⟩ := @TokenStream.derivation_of_clean maxDepth file (.alone tokens) .empty
      hreal hclean
    have hm : m.tokens = tokens := hm
    obtain ⟨d, rest, hd⟩ := m.exists_first (hm ▸ hne)
    obtain ⟨t, more, htokens, -, helse, hbrace⟩ := declaration_head d
    exact ⟨t, more ++ rest, by rw [Segment.tokens, ← hm, hd, htokens, List.cons_append], helse,
      fun _ => hbrace⟩
  | bad tokens =>
    obtain ⟨⟨front, loc, rfl, hsingle⟩, -⟩ := h
    cases front with
    | nil => exact ⟨_, _, rfl, by simp, fun _ => by simp⟩
    | cons t front =>
      have ht := hsingle t List.mem_cons_self
      exact ⟨t, _, rfl, fun hl => ht (hl ▸ by decide), fun _ hl => ht (hl ▸ by decide)⟩
  | braces tokens =>
    obtain ⟨hne, hbraces⟩ := h
    obtain ⟨t, more, rfl⟩ := List.exists_cons_of_ne_nil hne
    exact ⟨t, more, rfl, by simp [hbraces t List.mem_cons_self], by simp [isBraces]⟩

theorem following_ahead_ne (hvalid : ∀ g ∈ segments, g.Valid file)
    (hreal : ∀ t ∈ ahead false segments, t.lexeme ≠ .endOfFile) :
    following (ahead false segments) .endOfFile ≠ .keyword .elseKw := by
  cases segments with
  | nil => simp [ahead]
  | cons g rest =>
    obtain ⟨t, more, htokens, helse, -⟩ := (hvalid g List.mem_cons_self).exists_head
      fun t ht => hreal t (List.mem_append_left _ ht)
    rw [ahead, if_neg (by simp), List.flatMap_cons, htokens]
    exact helse

/-- The braces that are dropped before the segments are those of the first ones. -/
theorem dropWhile_ahead (hvalid : ∀ g ∈ segments, g.Valid file)
    (hreal : ∀ t ∈ ahead false segments, t.lexeme ≠ .endOfFile) :
    (ahead false segments).dropWhile (·.lexeme = .mark .braceClose) = ahead true segments := by
  induction segments with
  | nil => rfl
  | cons g rest ih =>
    obtain ⟨hg, hrest⟩ := List.forall_mem_cons.1 hvalid
    obtain ⟨hrealHere, hrealRest⟩ := List.forall_mem_append.1 hreal
    cases hbraces : g.isBraces with
    | false =>
      obtain ⟨t, more, htokens, -, hbrace⟩ := hg.exists_head hrealHere
      rw [ahead, ahead, if_neg (by simp), if_pos rfl,
        List.dropWhile_cons_of_neg (by simp [hbraces]), List.flatMap_cons, htokens,
        List.cons_append, List.dropWhile_cons_of_neg (by simpa using hbrace hbraces)]
    | true =>
      obtain ⟨tokens, rfl⟩ : ∃ tokens, g = braces tokens := by
        cases g with
        | braces tokens => exact ⟨tokens, rfl⟩
        | clean | bad => cases hbraces
      have hsplit : ahead false (braces tokens :: rest) = tokens ++ ahead false rest := rfl
      rw [hsplit, List.dropWhile_append_of_pos (by simpa using hg.2), ih hrest hrealRest]
      rfl

/-- The statements are what the tokens are read as on their own: whatever text has the same lexemes
and whatever table it is parsed into, the statements are the same by the names in the two tables,
and each place is that of the same token. -/
def Renders (file : String) (table : SymbolTable) (body : List Stmt) (tokens : List Token) : Prop :=
  ∀ (own : TokenStream) (other : SymbolTable), own.report = [] →
    own.tokens.map (·.lexeme) = tokens.map (·.lexeme) →
    (own.parse file other).report = [] ∧
      Stmt.AlikeAll ((own.parse file other).table.SameName table)
        (TokenStream.Places own.tokens tokens) (own.parse file other).program.body body

theorem Renders.mono {table' : SymbolTable} {tokens : List Token}
    (h : Renders file table body tokens) (hkeeps : table.Keeps table') :
    Renders file table' body tokens := fun own other hreport hlexemes =>
  ⟨(h own other hreport hlexemes).1,
    (h own other hreport hlexemes).2.widen fun _ _ hsame => hsame.mono (.refl _) hkeeps⟩

/-- From the state `s`, with `body` read already, the parser goes over the segments: it adds the
statements of the clean ones, and reports the others. -/
def Passes (file : String) (after : Bool) (segments : List Segment) (body : List Stmt)
    (s : State) : Prop :=
  ∃ (sections : List (List Stmt)) (ds : Report) (s' : State),
    iterate (declarationStep maxDepth) body s = .ok (body ++ sections.flatten) s' ∧
    s'.report = s.report ++ ds ∧ s.table.Keeps s'.table ∧
    List.Forall₂ (Renders file s'.table) sections (segments.filterMap clean?) ∧
    List.Forall₂ Diagnostic.Marks ds (reported after segments)

theorem passes_nil (after : Bool) (hs : s.ahead = []) : Passes file after [] body s := by
  refine ⟨[], [], s, ?_, (List.append_nil _).symm, .refl _, .nil, ?_⟩
  · rw [iterate_stop (productive_declarationStep maxDepth)
      ((productive_declarationStep maxDepth).atEnd body s hs), List.flatten_nil, List.append_nil]
  · cases after <;> exact .nil

theorem passes_clean {tokens : List Token} (after : Bool)
    (hvalid : (clean tokens).Valid file) (hvalidRest : ∀ g ∈ segments, g.Valid file)
    (hreal : s.Real) (hs : s.ahead = tokens ++ ahead false segments)
    (hrest : ∀ body' s', s'.Real → s'.ahead = ahead false segments →
      Passes file false segments body' s') :
    Passes file after (clean tokens :: segments) body s := by
  obtain ⟨hne, hclean⟩ := hvalid
  have hrealOwn : ∀ t ∈ tokens, t.lexeme ≠ .endOfFile :=
    fun t ht => hreal t (by rw [hs]; exact List.mem_append_left _ ht)
  have hcleanHere := (@TokenStream.alike_alone maxDepth file (.alone tokens) tokens .empty s.table
    hne hrealOwn hclean rfl rfl).1
  let parsed := (TokenStream.alone tokens).parseWithin maxDepth file s.table
  have hrenders : Renders file parsed.table parsed.program.body tokens :=
    fun own other hownReport hlexemes =>
      TokenStream.alike_alone hne hrealOwn hcleanHere hlexemes hownReport
  have hkeepsHere : s.table.Keeps parsed.table :=
    TokenStream.keeps_parseWithin maxDepth file (.alone tokens) s.table
  have hstep : iterate (declarationStep maxDepth) body s =
      iterate (declarationStep maxDepth) (body ++ parsed.program.body)
        (s.past tokens (ahead false segments) parsed.table) :=
    iterate_alone body hreal hs hcleanHere (following_ahead_ne hvalidRest (hreal.of_append hs))
  obtain ⟨sections, ds, s', hrun, hreport, hkeeps, hsections, hds⟩ :=
    hrest (body ++ parsed.program.body) (s.past tokens (ahead false segments) parsed.table)
      (hreal.past hs parsed.table) rfl
  refine ⟨parsed.program.body :: sections, ds, s', ?_, hreport, hkeepsHere.trans hkeeps,
    .cons (hrenders.mono hkeeps) hsections, by cases after <;> exact hds⟩
  rw [hstep, hrun, List.flatten_cons, List.append_assoc]

/-- A segment at which the parser stops is reported, and given up with the braces behind it. -/
theorem passes_stopped {tokens : List Token} {after : Bool} {d : Diagnostic} {s' : State}
    (hreal : s.Real) (hend : s.current.lexeme ≠ .endOfFile)
    (hrun : declaration maxDepth s = .error d s') (hreport : s'.report = s.report)
    (hmarks : d.Marks tokens)
    (hahead : (pastSemicolon s'.last s'.ahead).2.dropWhile (·.lexeme = .mark .braceClose) =
      ahead true segments)
    (hclean : g.clean? = none) (hreported : reported after (g :: segments) =
      tokens :: reported true segments)
    (hrest : ∀ s', s'.Real → s'.ahead = ahead true segments → Passes file true segments body s') :
    Passes file after (g :: segments) body s := by
  have hstep := declarationStep_of_error body hend hrun
  have horderly := (Orderly.declarationStep maxDepth body s).1
  have hkeepsStep := keeps_declaration maxDepth s
  rw [hrun] at hkeepsStep
  generalize hs'' : State.mk _ _ _ _ _ = s'' at hstep
  rw [hstep] at horderly
  have haheadStep : s''.ahead = ahead true segments := by
    rw [← hahead, ← hs'', ← pastBraces_eq]
  have hreportStep : s''.report = s.report ++ [d] := by rw [← hs'', ← hreport]
  have htableStep : s''.table = s'.table := by rw [← hs'']
  obtain ⟨sections, ds, s₁, hrun₁, hreport₁, hkeeps, hsections, hds⟩ :=
    hrest s'' (fun t ht => hreal t (horderly.subset ht)) haheadStep
  refine ⟨sections, d :: ds, s₁, ?_, ?_, ?_, ?_, ?_⟩
  · rw [(productive_declarationStep maxDepth).iterate_eq, bind_of_ok hstep]
    exact hrun₁
  · rw [hreport₁, hreportStep, List.append_assoc, List.singleton_append]
  · exact hkeepsStep.trans (htableStep ▸ hkeeps)
  · rwa [List.filterMap_cons_none hclean]
  · rw [hreported]
    exact .cons hmarks hds

theorem passes_bad {tokens : List Token} (after : Bool) (hvalid : (bad tokens).Valid file)
    (hvalidRest : ∀ g ∈ segments, g.Valid file) (hreal : s.Real)
    (hs : s.ahead = tokens ++ ahead false segments)
    (hrest : ∀ s', s'.Real → s'.ahead = ahead true segments → Passes file true segments body s') :
    Passes file after (bad tokens :: segments) body s := by
  have hrealRest := hreal.of_append hs
  obtain ⟨⟨front, loc, rfl, hsingle⟩, hfails⟩ := hvalid
  let stretch : Stretch :=
    ⟨front, loc, ahead false segments, hsingle, following_ahead_ne hvalidRest hrealRest⟩
  obtain ⟨d, s', hrun, hreport, hstopped⟩ := stretch.declaration_stops hreal hs hfails
  have hgiven : (pastSemicolon s'.last s'.ahead).2 = ahead false segments :=
    hstopped.before.pastSemicolon s'.last
  have hahead := dropWhile_ahead hvalidRest hrealRest
  rw [← hgiven] at hahead
  exact passes_stopped hreal (hreal.current_ne (by simp [hs])) hrun hreport hstopped.marks hahead
    rfl (by cases after <;> rfl) hrest

theorem passes_braces {tokens : List Token} (hvalid : (braces tokens).Valid file)
    (hvalidRest : ∀ g ∈ segments, g.Valid file) (hreal : s.Real)
    (hs : s.ahead = ahead false (braces tokens :: segments))
    (hrest : ∀ s', s'.Real → s'.ahead = ahead true segments → Passes file true segments body s') :
    Passes file false (braces tokens :: segments) body s := by
  obtain ⟨t, more, rfl⟩ := List.exists_cons_of_ne_nil hvalid.1
  have hcurrent : s.current = t := State.current_eq hs
  have hbrace := hvalid.2 t List.mem_cons_self
  obtain ⟨d, hrun, hphase, u, hu, hloc⟩ := Refuses.declaration maxDepth (s := s)
    (by rw [hcurrent, hbrace])
  rw [hcurrent, List.mem_singleton] at hu
  have hahead : (pastSemicolon s.last s.ahead).2.dropWhile (·.lexeme = .mark .braceClose) =
      ahead true segments := by
    rw [pastSemicolon_of_brace hs hbrace, hs]
    exact dropWhile_ahead (List.forall_mem_cons.2 ⟨hvalid, hvalidRest⟩) (hs ▸ hreal)
  exact passes_stopped hreal (by rw [hcurrent, hbrace]; simp) hrun rfl
    ⟨hphase, t, List.mem_cons_self, hu ▸ hloc⟩ hahead rfl rfl hrest

/-- The parser goes over valid segments, one after the other. -/
theorem passes (segments : List Segment) (hvalid : ∀ g ∈ segments, g.Valid file) (after : Bool)
    (body : List Stmt) (s : State) (hreal : s.Real) (hs : s.ahead = ahead after segments) :
    Passes file after segments body s := by
  induction segments generalizing after body s with
  | nil => exact passes_nil after (by rw [hs]; cases after <;> rfl)
  | cons g rest ih =>
    obtain ⟨hg, hvalidRest⟩ := List.forall_mem_cons.1 hvalid
    have hrest := ih hvalidRest
    cases g with
    | clean tokens =>
      have hs : s.ahead = tokens ++ ahead false rest := by rw [hs]; cases after <;> rfl
      exact passes_clean after hg hvalidRest hreal hs (hrest false)
    | bad tokens =>
      have hs : s.ahead = tokens ++ ahead false rest := by rw [hs]; cases after <;> rfl
      exact passes_bad after hg hvalidRest hreal hs (hrest true body)
    | braces tokens =>
      -- Braces behind a segment that was given up are gone already.
      cases after with
      | true => exact hrest true body s hreal hs
      | false => exact passes_braces hg hvalidRest hreal hs (hrest true body)

theorem reported_sublist (after : Bool) (segments : List Segment) :
    (reported after segments).Sublist (segments.map tokens) := by
  induction segments generalizing after with
  | nil => cases after <;> exact .slnil
  | cons g rest ih =>
    cases g with
    | clean tokens => cases after <;> exact (ih false).cons _
    | bad tokens => cases after <;> exact (ih true).cons_cons _
    | braces tokens =>
      cases after with
      | true => exact (ih true).cons _
      | false => exact (ih true).cons_cons _

end Segment

namespace Report

/-- What is found in the order of its places is in order already. -/
theorem sorted_eq_self {r : Report} (h : r.Pairwise fun d e => e.precedes d = false) :
    r.sorted = r := by
  induction r with
  | nil => rfl
  | cons d rest ih =>
    obtain ⟨hd, hrest⟩ := List.pairwise_cons.1 h
    have hstep : Report.sorted (d :: rest) = d.insertSorted (Report.sorted rest) := rfl
    rw [hstep, ih hrest]
    cases rest with
    | nil => rfl
    | cons e rest => rw [Diagnostic.insertSorted, hd e List.mem_cons_self, if_neg (by simp)]

theorem exists_of_marks {ds : Report} {rows : List (List Token)}
    (hmarks : List.Forall₂ Diagnostic.Marks ds rows) :
    ∀ d ∈ ds, ∃ t ∈ rows.flatten, d.loc = t.loc := by
  induction hmarks with
  | nil => simp
  | @cons d row ds rows hd _ ih =>
    obtain ⟨-, t, ht, hloc⟩ := hd
    refine List.forall_mem_cons.2 ⟨⟨t, List.mem_append_left _ ht, hloc⟩, fun e he => ?_⟩
    obtain ⟨u, hu, hloc'⟩ := ih e he
    exact ⟨u, List.mem_append_right _ hu, hloc'⟩

/-- Diagnostics at tokens of one row of tokens after the other are in the order of the tokens. -/
theorem pairwise_of_marks {R : Location → Location → Prop} {ds : Report}
    {rows : List (List Token)} (hmarks : List.Forall₂ Diagnostic.Marks ds rows)
    (hrows : rows.flatten.Pairwise fun t u => R t.loc u.loc) :
    ds.Pairwise fun d e => R d.loc e.loc := by
  induction hmarks with
  | nil => exact .nil
  | @cons d row ds rows hd hds ih =>
    obtain ⟨-, hrest, hbefore⟩ := List.pairwise_append.1 hrows
    obtain ⟨-, t, ht, hloc⟩ := hd
    refine List.pairwise_cons.2 ⟨fun e he => ?_, ih hrest⟩
    obtain ⟨u, hu, hloc'⟩ := exists_of_marks hds e he
    rw [hloc, hloc']
    exact hbefore t ht u hu

end Report

/-- The tokens of a text stand in one file, each further on than the one before it. -/
theorem TokenStream.pairwise_ofSource (file : String) (source : Source) :
    (ofSource file source).tokens.Pairwise fun t u =>
      t.loc.file = u.loc.file ∧ t.loc.offset < u.loc.offset := by
  have hlayout := Piece.layout_split file [] source
  rw [← Position.start_eq_past, ← tokens_ofSource] at hlayout
  have hoffsets := hlayout.ascending
  rw [List.pairwise_map, List.pairwise_append] at hoffsets
  have hfile : ∀ t ∈ (ofSource file source).tokens, t.loc.file = file := by
    intro t ht
    obtain ⟨front, after, -, hloc, -⟩ :=
      hlayout.exists_of_mem (List.mem_append_left _ ht) (lexeme_ne_of_mem ht)
    rw [hloc]
    rfl
  refine hoffsets.1.imp_of_mem fun ht hu hlt => ⟨?_, hlt⟩
  rw [hfile _ ht, hfile _ hu]

namespace Program

/-- Errors do not spread. Where the tokens of a text fall into valid segments, its program is the
statements of the clean segments, each as it is read alone, and its report is one syntax error at a
token of each bad segment, and one at each row of braces that follows neither a bad segment nor
another row. -/
theorem parse_isolates (file : String) (source : Source) (table : SymbolTable)
    (segments : List Segment) (hlex : (TokenStream.ofSource file source).report = [])
    (htokens : (TokenStream.ofSource file source).tokens = segments.flatMap Segment.tokens)
    (hvalid : ∀ g ∈ segments, g.Valid file) :
    let parsed := Program.parse file source table
    (∃ sections : List (List Stmt), parsed.program.body = sections.flatten ∧
      List.Forall₂ (Segment.Renders file parsed.table) sections
        (segments.filterMap Segment.clean?)) ∧
      List.Forall₂ Diagnostic.Marks parsed.report (Segment.reported false segments) := by
  intro parsed
  obtain ⟨sections, ds, s, hrun, hreport, -, hsections, hds⟩ := Segment.passes segments hvalid false
    [] (State.start (TokenStream.ofSource file source) table) (TokenStream.real_start table) htokens
  have hsorted : Report.sorted ds = ds := by
    refine Report.sorted_eq_self ?_
    have hplaced := TokenStream.pairwise_ofSource file source
    rw [htokens, List.flatMap_def] at hplaced
    have hrows := hplaced.sublist (Segment.reported_sublist false segments).flatten
    refine (@Report.pairwise_of_marks
      (fun l l' => l.file = l'.file ∧ l.offset < l'.offset) _ _ hds hrows).imp fun hlt => ?_
    rw [Diagnostic.precedes, if_pos hlt.1.symm]
    exact decide_eq_false (Int.not_lt.2 (Int.le_of_lt hlt.2))
  have hparsed : parsed = ⟨⟨file, sections.flatten⟩, s.table, ds⟩ := by
    have hstart : (State.start (TokenStream.ofSource file source) table).report = [] := rfl
    rw [hstart, List.nil_append] at hreport
    change TokenStream.parseWithin maxDepth file _ table = _
    rw [TokenStream.parseWithin_of_ok hrun, hlex, hreport, List.nil_append,
      List.nil_append, hsorted]
  rw [hparsed]
  exact ⟨⟨sections, rfl, hsections⟩, hds⟩

/-- A program, a brace that is reported, an error, and a brace that is dropped with it. -/
theorem parse_isolates_mixed :
    let parsed := Program.parse "m" (Source.ofString "x; \x7d y z; \x7d") .empty
    Segment.Renders "m" parsed.table parsed.program.body
        [⟨.identifier "x", ⟨"m", 1, 1, 0⟩⟩, ⟨.mark .semicolon, ⟨"m", 1, 2, 1⟩⟩] ∧
      List.Forall₂ Diagnostic.Marks parsed.report
        [[⟨.mark .braceClose, ⟨"m", 1, 4, 3⟩⟩],
          [⟨.identifier "y", ⟨"m", 1, 6, 5⟩⟩, ⟨.identifier "z", ⟨"m", 1, 8, 7⟩⟩,
            ⟨.mark .semicolon, ⟨"m", 1, 9, 8⟩⟩]] := by
  intro parsed
  obtain ⟨⟨sections, hbody, hsections⟩, hmarks⟩ := parse_isolates "m"
    (Source.ofString "x; \x7d y z; \x7d") .empty
    [.clean [⟨.identifier "x", ⟨"m", 1, 1, 0⟩⟩, ⟨.mark .semicolon, ⟨"m", 1, 2, 1⟩⟩],
      .braces [⟨.mark .braceClose, ⟨"m", 1, 4, 3⟩⟩],
      .bad [⟨.identifier "y", ⟨"m", 1, 6, 5⟩⟩, ⟨.identifier "z", ⟨"m", 1, 8, 7⟩⟩,
        ⟨.mark .semicolon, ⟨"m", 1, 9, 8⟩⟩],
      .braces [⟨.mark .braceClose, ⟨"m", 1, 11, 10⟩⟩]]
    (by decide +kernel) (by decide +kernel) (by
      rw [List.forall_mem_cons, List.forall_mem_cons, List.forall_mem_cons,
        List.forall_mem_singleton]
      refine ⟨⟨by simp, by decide +kernel⟩, ⟨by simp, by simp⟩, ⟨⟨[⟨.identifier "y", _⟩,
        ⟨.identifier "z", _⟩], _, rfl, by decide⟩, by decide +kernel⟩, by simp, by simp⟩)
  refine ⟨?_, hmarks⟩
  obtain ⟨body, rest, hfirst, hrest, rfl⟩ := List.forall₂_cons_right_iff.1 hsections
  cases hrest
  rw [hbody, List.flatten_cons, List.flatten_nil, List.append_nil]
  exact hfirst

end Program

end Ember
