import Ember.Proofs.Grammar.Settled
import Ember.Proofs.Parser.Exact

namespace Ember.Parser

open Grammar

variable {α β : Type} {s s₀ s₁ s₂ : State}

namespace State

/-- The tokens that are left end those that were ahead, and the names of the table begin with those
that were in it. -/
structure Reaches (s s' : State) : Prop where
  ahead : s'.ahead <:+ s.ahead
  names : s.table.names <+: s'.table.names

/-- The given tokens were ahead of those that are left, and their integers are in range. -/
structure Takes (s : State) (ts : List Token) (s' : State) : Prop where
  ahead : s.ahead = ts ++ s'.ahead
  inRange : ∀ t ∈ ts, t.InRange

/-- The given tokens were ahead of those that are left, perhaps among others. -/
structure Picks (s : State) (ts : List Token) (s' : State) : Prop where
  ahead : (ts ++ s'.ahead).Sublist s.ahead
  inRange : ∀ t ∈ ts, t.InRange

theorem Reaches.refl (s : State) : s.Reaches s := ⟨List.suffix_refl _, List.prefix_refl _⟩

theorem Reaches.trans (h : s.Reaches s₁) (h' : s₁.Reaches s₂) : s.Reaches s₂ :=
  ⟨h'.ahead.trans h.ahead, h.names.trans h'.names⟩

theorem advanced_table (s : State) : s.advanced.table = s.table := by
  unfold advanced
  split <;> rfl

theorem reaches_advanced (s : State) : s.Reaches s.advanced :=
  ⟨(Orderly.advance s).1, s.advanced_table ▸ List.prefix_refl _⟩

namespace Takes

variable {ts us : List Token}

theorem nil (h : s₁.ahead = s.ahead) : s.Takes [] s₁ := ⟨h.symm, by simp⟩

theorem trans (h : s.Takes ts s₁) (h' : s₁.Takes us s₂) : s.Takes (ts ++ us) s₂ :=
  ⟨by rw [h.ahead, h'.ahead, List.append_assoc], List.forall_mem_append.2 ⟨h.inRange, h'.inRange⟩⟩

/-- Taking the token ahead. -/
theorem token {l : Lexeme} (hl : s.current.lexeme = l) (hend : l ≠ .endOfFile)
    (hrange : (⟨l, s.current.loc⟩ : Token).InRange) : s.Takes [⟨l, s.current.loc⟩] s.advanced := by
  subst hl
  refine ⟨?_, List.forall_mem_singleton.2 hrange⟩
  unfold current advanced at *
  cases hahead : s.ahead with
  | nil => simp [hahead] at hend
  | cons t rest => rfl

theorem mark {m : Mark} (hl : s.current.lexeme = .mark m) :
    s.Takes [⟨.mark m, s.current.loc⟩] s.advanced :=
  token hl nofun (inRange_of_ne nofun)

theorem keyword {k : Keyword} (hl : s.current.lexeme = .keyword k) :
    s.Takes [⟨.keyword k, s.current.loc⟩] s.advanced :=
  token hl nofun (inRange_of_ne nofun)

theorem identifier {name : String} (hl : s.current.lexeme = .identifier name) :
    s.Takes [⟨.identifier name, s.current.loc⟩] s.advanced :=
  token hl nofun (inRange_of_ne nofun)

theorem picks (h : s.Takes ts s₁) : s.Picks ts s₁ :=
  ⟨h.ahead ▸ List.Sublist.refl _, h.inRange⟩

/-- Tokens stand where the parser was when it took them. -/
theorem start_eq {l : Level} {e : Phrase l} (h : s.Takes e.tokens s₁) :
    e.start = s.current.loc := by
  obtain ⟨t, rest, hts⟩ := List.exists_cons_of_ne_nil e.tokens_ne_nil
  have hahead := h.ahead
  rw [hts] at hahead
  rw [Phrase.start, hts, current_eq hahead]
  rfl

end Takes

namespace Picks

variable {ts us : List Token}

theorem trans (h : s.Picks ts s₁) (h' : s₁.Picks us s₂) : s.Picks (ts ++ us) s₂ := by
  refine ⟨?_, List.forall_mem_append.2 ⟨h.inRange, h'.inRange⟩⟩
  rw [List.append_assoc]
  exact (h'.ahead.append_left ts).trans h.ahead

/-- Tokens that are passed over are not picked. -/
theorem reaches (h : s.Picks ts s₁) (h' : s₁.Reaches s₂) : s.Picks ts s₂ :=
  ⟨(h'.ahead.sublist.append_left ts).trans h.ahead, h.inRange⟩

end Picks

end State

/-- However the parser ends, it has gone on from the state `s`. What it gives, and the state then,
are as `post` tells. -/
def Saves (p : Parser α) (s : State) (post : α → State → Prop) : Prop :=
  match p s with
  | .ok a s' => s.Reaches s' ∧ post a s'
  | .error _ s' => s.Reaches s'

namespace Saves

variable {p : Parser α} {k : α → Parser β} {post post₁ : α → State → Prop}
  {post' : β → State → Prop}

theorem pure {a : α} (h : post a s) : Saves (Pure.pure a) s post := ⟨.refl s, h⟩

theorem fail (code : Code) (loc : Location) (args : List (String × Argument)) :
    Saves (Parser.fail code loc args) s post := .refl s

/-- What a parser does from a later state it does from an earlier one. -/
theorem later (hs : s.Reaches s₁) {q : Parser α} (hq : q s = p s₁) (h : Saves p s₁ post) :
    Saves q s post := by
  unfold Saves at h ⊢
  rw [hq]
  split at h
  · exact ⟨hs.trans h.1, h.2⟩
  · exact hs.trans h

theorem bind (hp : Saves p s post)
    (hk : ∀ a s', s.Reaches s' → post a s' → Saves (k a) s' post') :
    Saves (p >>= k) s post' := by
  unfold Saves at hp
  cases hrun : p s with
  | ok a s' =>
    rw [hrun] at hp
    exact later hp.1 (bind_of_ok hrun) (hk a s' hp.1 hp.2)
  | error d s' =>
    rw [hrun] at hp
    unfold Saves
    rw [bind_of_error hrun]
    exact hp

theorem mono (hp : Saves p s post₁) (h : ∀ a s', s.Reaches s' → post₁ a s' → post a s') :
    Saves p s post := by
  unfold Saves at hp ⊢
  split at hp
  · exact ⟨hp.1, h _ _ hp.1 hp.2⟩
  · exact hp

theorem map {f : α → β} (hp : Saves p s post) (h : ∀ a s', post a s' → post' (f a) s') :
    Saves (f <$> p) s post' := by
  rw [map_eq_pure_bind]
  exact hp.bind fun a s' _ ha => pure (h a s' ha)

theorem current_bind {k : Token → Parser β} (h : Saves (k s.current) s post') :
    Saves (current >>= k) s post' := h

theorem advance_bind {k : Unit → Parser β} (h : Saves (k ()) s.advanced post') :
    Saves (advance >>= k) s post' :=
  later s.reaches_advanced rfl h

theorem accept_bind {l : Lexeme} {k : Bool → Parser β}
    (htrue : s.current.lexeme = l → Saves (k true) s.advanced post')
    (hfalse : s.current.lexeme ≠ l → Saves (k false) s post') :
    Saves (accept l >>= k) s post' := by
  by_cases hl : s.current.lexeme = l
  · exact later s.reaches_advanced (bind_of_ok (accept_of_eq hl)) (htrue hl)
  · exact later (.refl s) (bind_of_ok (accept_of_ne hl)) (hfalse hl)

theorem expect_bind {l : Lexeme} {k : Location → Parser β}
    (h : s.current.lexeme = l → Saves (k s.current.loc) s.advanced post') :
    Saves (expect l >>= k) s post' := by
  by_cases hl : s.current.lexeme = l
  · exact later s.reaches_advanced (bind_of_ok (expect_of_eq hl)) (h hl)
  · obtain ⟨d, hd, -⟩ := expect_of_ne hl
    unfold Saves
    rw [bind_of_error hd]
    exact .refl s

theorem identifier_bind {k : String × Location → Parser β}
    (h : ∀ name, s.current.lexeme = .identifier name →
      Saves (k (name, s.current.loc)) s.advanced post') :
    Saves (identifier >>= k) s post' := by
  by_cases hl : ∃ name, s.current.lexeme = .identifier name
  · obtain ⟨name, hl⟩ := hl
    exact later s.reaches_advanced (bind_of_ok (identifier_of_eq hl)) (h name hl)
  · obtain ⟨d, hd, -⟩ := identifier_of_ne (not_exists.1 hl)
    unfold Saves
    rw [bind_of_error hd]
    exact .refl s

/-- A type is the keyword that spells it. -/
theorem datatype_bind {k : Datatype → Parser β}
    (h : ∀ n : TypeName, n.loc = s.current.loc → s.Takes [n.token] s.advanced →
      Saves (k n.type) s.advanced post') :
    Saves (datatype >>= k) s post' := by
  cases htype : s.current.lexeme.datatype? with
  | some type =>
    refine later s.reaches_advanced (bind_of_ok (datatype_of_eq htype)) ?_
    cases hl : s.current.lexeme with
    | keyword keyword =>
      rw [hl] at htype
      exact h ⟨keyword, type, s.current.loc, mem_typeNames.2 htype⟩ rfl (.keyword hl)
    | identifier | integer | mark | endOfFile => simp [hl, Lexeme.datatype?] at htype
  | none =>
    obtain ⟨d, hd, -⟩ := datatype_of_none htype
    unfold Saves
    rw [bind_of_error hd]
    exact .refl s

/-- A name that is entered has its id from then on. -/
theorem enter_bind (name : String) (type : Datatype) {k : Int → Parser β}
    (h : ∀ (id : Int) (s' : State), s.Reaches s' → s'.ahead = s.ahead →
      (∀ t : SymbolTable, s'.table.names <+: t.names →
        Settled (fun t => (((t.add name type).1 : Int), (t.add name type).2)) t id) →
      Saves (k id) s' post') :
    Saves (enter name type >>= k) s post' := by
  have hreaches : s.Reaches { s with table := (s.table.add name type).2 } :=
    ⟨List.suffix_refl _, s.table.names_prefix_add name type⟩
  refine later hreaches rfl (h (s.table.add name type).1 _ hreaches rfl fun t ht => ?_)
  exact (Settled.add ht type).map _

theorem retype_bind (id : Int) (type : Datatype) {k : Unit → Parser β}
    (h : Saves (k ()) { s with table := s.table.retype id type } post') :
    Saves ((modify fun s => { s with table := s.table.retype id type }) >>= k) s post' := by
  have hreaches : s.Reaches { s with table := s.table.retype id type } :=
    ⟨List.suffix_refl _, (s.table.names_retype id type).symm ▸ List.prefix_refl _⟩
  exact later hreaches rfl h

theorem attempt (hp : Saves p s post) :
    Saves (attempt p) s fun r s' => ∀ a, r = .ok a → post a s' := by
  unfold Saves at hp ⊢
  cases hrun : p s with
  | ok a s' =>
    rw [hrun] at hp
    rw [attempt_of_ok hrun]
    refine ⟨hp.1, ?_⟩
    rintro _ ⟨⟩
    exact hp.2
  | error d s' =>
    rw [hrun] at hp
    rw [attempt_of_error hrun]
    exact ⟨hp, nofun⟩

theorem record (d : Diagnostic) : Saves (record d) s fun _ _ => True :=
  ⟨⟨List.suffix_refl _, List.prefix_refl _⟩, trivial⟩

theorem synchronize : Saves synchronize s fun _ _ => True :=
  ⟨⟨Orderly.pastSemicolon_suffix s.last s.ahead, List.prefix_refl _⟩, trivial⟩

theorem skipBraces : Saves skipBraces s fun _ _ => True :=
  ⟨⟨Orderly.pastBraces_suffix s.last s.ahead, List.prefix_refl _⟩, trivial⟩

/-- A step that has nothing to add leaves what is told true. -/
theorem iterateWithin {step : α → Parser (Option α)}
    (hstep : ∀ a s, post a s → Saves (step a) s fun b s' => post (b.getD a) s') :
    ∀ (room : List Token) (a : α) {s : State}, post a s → Saves (iterateWithin step room a) s post
  | [], _, _, ha => pure ha
  | _ :: room, a, s, ha => by
    refine (hstep a s ha).bind fun b s' _ hb => ?_
    cases b with
    | none => exact pure hb
    | some b => exact iterateWithin hstep room b hb

theorem iterate {step : α → Parser (Option α)}
    (hstep : ∀ a s, post a s → Saves (step a) s fun b s' => post (b.getD a) s') {a : α}
    (ha : post a s) : Saves (iterate step a) s post :=
  iterateWithin hstep s.ahead a ha

theorem commaSeparated {item : Parser α} {post : List α → State → Prop}
    (hfirst : Saves item s fun a s' => post [a] s')
    (hmore : ∀ items s, post items s → s.current.lexeme = .mark .comma →
      Saves item s.advanced fun a s' => post (items ++ [a]) s') :
    Saves (commaSeparated item) s post := by
  rw [commaSeparated_eq]
  refine hfirst.bind fun first s₁ _ hfirst => iterate (fun items s₂ hitems => ?_) hfirst
  refine accept_bind (fun hcomma => ?_) fun _ => pure hitems
  exact (hmore items s₂ hitems hcomma).bind fun _ _ _ hitem => pure hitem

theorem closedBy {l : Lexeme} {absent : Location → α}
    (habsent : s.current.lexeme = l → post₁ (absent s.current.loc) s) (h : Saves p s post₁)
    (hclose : ∀ a s, post₁ a s → s.current.lexeme = l → post a s.advanced) :
    Saves (closedBy l absent p) s post := by
  have htail : ∀ a s, post₁ a s → Saves (do
      let _ ← expect l
      return a) s post := fun a s ha => expect_bind fun hl => pure (hclose a s ha hl)
  refine current_bind ?_
  split
  · rename_i hl
    exact (pure (habsent hl)).bind fun a s' _ ha => htail a s' ha
  · exact h.bind fun a s' _ ha => htail a s' ha

end Saves

/-- The value is the tree of a derivation of the tokens between two states, in every table that
begins with the names of the later one. -/
def ReadsAs {l : Level} (e : Phrase l) (s : State) (a : l.Tree) (s' : State) : Prop :=
  s.Takes e.tokens s' ∧ Settled e.build s'.table a

/-- From every state the parser gives a tree of the level. -/
abbrev SavesPhrase (l : Level) (p : Parser l.Tree) : Prop :=
  ∀ s, Saves p s fun a s' => ∃ e : Phrase l, ReadsAs e s a s'

section

variable {operand expr : Parser Expr}

namespace SavesPhrase

theorem primary (h : SavesPhrase .expression expr) : SavesPhrase .primary (primary expr) := by
  intro s
  refine Saves.current_bind ?_
  split
  · rename_i name hname
    refine Saves.advance_bind (Saves.enter_bind name .empty fun id s' _ hahead hid => ?_)
    refine Saves.pure ⟨.named name s.current.loc, ?_, ?_⟩
    · exact (State.Takes.identifier hname).trans (.nil hahead)
    · exact (hid _ (List.prefix_refl _)).map fun id => Expr.var id s.current.loc
  · rename_i htrue
    exact Saves.advance_bind
      (Saves.pure ⟨.truth true s.current.loc, .keyword htrue, .const _ _⟩)
  · rename_i hfalse
    exact Saves.advance_bind
      (Saves.pure ⟨.truth false s.current.loc, .keyword hfalse, .const _ _⟩)
  · rename_i digits hdigits
    rw [integerLiteral?_decimal]
    split
    · rename_i value hvalue
      split at hvalue
      · rename_i hrange
        cases hvalue
        have htoken : s.Takes [⟨.integer digits, s.current.loc⟩] s.advanced := by
          refine .token hdigits nofun ?_
          rintro _ ⟨⟩
          exact hrange
        exact Saves.advance_bind (Saves.pure ⟨.integer digits s.current.loc, htoken, .const _ _⟩)
      · cases hvalue
    · exact Saves.fail _ _ _
  · rename_i hopen
    refine Saves.advance_bind ((h _).bind fun inner s₁ hs₁ hinner => ?_)
    obtain ⟨e, htakes, hbuild⟩ := hinner
    refine Saves.expect_bind fun hclose => Saves.pure
      ⟨.group s.current.loc e s₁.current.loc, ?_, ?_⟩
    · exact (State.Takes.mark hopen).trans (htakes.trans (.mark hclose))
    · exact (s₁.advanced_table ▸ hbuild).map fun inner => Expr.group inner s.current.loc
  · exact Saves.fail _ _ _
  · exact Saves.fail _ _ _

theorem commaSeparated (h : SavesPhrase .expression expr) :
    SavesPhrase .arguments (commaSeparated expr) := by
  intro s
  refine Saves.commaSeparated ?_ fun items s₁ hitems hcomma => ?_
  · refine (h s).mono fun first s₁ _ hfirst => ?_
    obtain ⟨e, htakes, hbuild⟩ := hfirst
    exact ⟨.argument e, htakes, hbuild.map fun first => [first]⟩
  · obtain ⟨es, htakes, hbuild⟩ := hitems
    refine (h s₁.advanced).mono fun item s₂ hs₂ hitem => ?_
    obtain ⟨e, htakes', hbuild'⟩ := hitem
    refine ⟨.another es s₁.current.loc e, htakes.trans ((State.Takes.mark hcomma).trans htakes'), ?_⟩
    exact (hbuild.mono (s₁.advanced_table ▸ hs₂.names)).both (fun items item => items ++ [item])
      hbuild'

/-- What stands between the parentheses of a call, with the closing one. -/
theorem arguments (h : SavesPhrase .expression expr) (s : State) :
    Saves (arguments expr) s fun args s' =>
      (∃ closing, s.Takes [⟨.mark .parenClose, closing⟩] s' ∧ args = []) ∨
        ∃ (es : Phrase .arguments) (closing : Location),
          s.Takes (es.tokens ++ [⟨.mark .parenClose, closing⟩]) s' ∧
            Settled es.build s'.table args := by
  rw [arguments_eq]
  have hitems : Saves (Parser.commaSeparated expr) s fun args s' => (args = [] ∧ s' = s) ∨
      ∃ es : Phrase .arguments, ReadsAs es s args s' :=
    (commaSeparated h s).mono fun _ _ _ hargs => .inr hargs
  refine Saves.closedBy (fun _ => .inl ⟨rfl, rfl⟩) hitems ?_
  rintro args s' (⟨rfl, rfl⟩ | ⟨es, htakes, hbuild⟩) hclose
  · exact .inl ⟨_, .mark hclose, rfl⟩
  · exact .inr ⟨es, _, htakes.trans (.mark hclose), s'.advanced_table ▸ hbuild⟩

theorem call (h : SavesPhrase .expression expr) : SavesPhrase .call (call expr) := by
  intro s
  rw [call_eq]
  refine (primary h s).bind fun first s₁ _ hfirst => ?_
  obtain ⟨e, htakes, hbuild⟩ := hfirst
  refine Saves.iterate (fun callee s₂ hcallee => ?_) ⟨.plain e, htakes, hbuild⟩
  refine Saves.accept_bind (fun hopen => ?_) fun _ => Saves.pure hcallee
  obtain ⟨f, htakes, hbuild⟩ := hcallee
  refine (arguments h s₂.advanced).bind fun args s₃ hs₃ hargs => Saves.pure ?_
  have hcallee := hbuild.mono (s₂.advanced_table ▸ hs₃.names)
  rcases hargs with ⟨closing, hclose, rfl⟩ | ⟨es, closing, htakes', hbuild'⟩
  · refine ⟨.callEmpty f s₂.current.loc closing, ?_, ?_⟩
    · exact htakes.trans ((State.Takes.mark hopen).trans hclose)
    · exact hcallee.map fun callee => Expr.call callee [] (Expr.loc callee)
  · refine ⟨.callWith f s₂.current.loc es closing, ?_, ?_⟩
    · exact htakes.trans ((State.Takes.mark hopen).trans htakes')
    · exact hcallee.both (fun callee args => Expr.call callee args (Expr.loc callee)) hbuild'

theorem leftAssociative {precedence : Nat} (h : SavesPhrase (.binary (precedence + 1)) operand) :
    SavesPhrase (.binary precedence) (leftAssociative precedence operand) := by
  intro s
  rw [leftAssociative_eq]
  refine (h s).bind fun first s₁ _ hfirst => ?_
  obtain ⟨e, htakes, hbuild⟩ := hfirst
  refine Saves.iterate (fun left s₂ hleft => ?_) ⟨.tighter e, htakes, hbuild⟩
  refine Saves.current_bind ?_
  split
  · rename_i op hop
    split
    · rename_i hbinds
      obtain ⟨a, htakes, hbuild⟩ := hleft
      obtain ⟨mark, hmark, hspelled⟩ := exists_mark_of_binaryOp? hop
      refine Saves.advance_bind ((h _).bind fun right s₃ hs₃ hright => Saves.pure ?_)
      obtain ⟨b, htakes', hbuild'⟩ := hright
      refine ⟨.chain a mark op s₂.current.loc b (mem_operators.2 ⟨hspelled, hbinds⟩), ?_, ?_⟩
      · exact htakes.trans ((State.Takes.mark hmark).trans htakes')
      · exact (hbuild.mono (s₂.advanced_table ▸ hs₃.names)).both
          (fun left right => Expr.binary op left right s₂.current.loc) hbuild'
    · exact Saves.pure hleft
  · exact Saves.pure hleft

theorem binary (h : SavesPhrase .unary operand) : SavesPhrase (.binary 1) (binary operand) := by
  have hlone : SavesPhrase (.binary 5) operand := fun s =>
    (h s).mono fun _ _ _ ⟨e, he⟩ => ⟨.lone e, he⟩
  exact leftAssociative (leftAssociative (leftAssociative (leftAssociative hlone)))

theorem assignmentWithin (h : SavesPhrase .unary operand) :
    (room : List Token) → SavesPhrase .expression (assignmentWithin operand room)
  | [] => fun s => (binary h s).mono fun _ _ _ ⟨e, he⟩ => ⟨.simple e, he⟩
  | _ :: room => by
    intro s
    refine (binary h s).bind fun target s₁ _ htarget => Saves.current_bind ?_
    obtain ⟨a, htakes, hbuild⟩ := htarget
    split
    · exact Saves.pure ⟨.simple a, htakes, hbuild⟩
    · rename_i op hop
      obtain ⟨mark, hmark, hspelled⟩ := exists_mark_of_assignOp? hop
      refine Saves.advance_bind
        ((assignmentWithin h room _).bind fun value s₂ hs₂ hvalue => Saves.pure ?_)
      obtain ⟨b, htakes', hbuild'⟩ := hvalue
      refine ⟨.assign a mark op s₁.current.loc b (mem_assignments.2 hspelled), ?_, ?_⟩
      · exact htakes.trans ((State.Takes.mark hmark).trans htakes')
      · exact (hbuild.mono (s₁.advanced_table ▸ hs₂.names)).both (fun target value =>
          Expr.assign target (stored target value s₁.current.loc op) (Expr.loc target)) hbuild'

theorem expressionOver (h : SavesPhrase .unary operand) :
    SavesPhrase .expression (expressionOver operand) :=
  fun s => assignmentWithin h s.ahead s

theorem unary : (room : Nat) → SavesPhrase .unary (unary room)
  | 0 => fun _ => Saves.current_bind (Saves.fail _ _ _)
  | room + 1 => by
    intro s
    refine Saves.current_bind ?_
    split
    · rename_i op hop
      refine Saves.advance_bind ((unary room _).bind fun inner s₁ _ hinner => Saves.pure ?_)
      obtain ⟨e, htakes, hbuild⟩ := hinner
      obtain ⟨mark, hmark, hspelled⟩ := exists_mark_of_unaryOp? hop
      refine ⟨.operator mark op s.current.loc e (mem_signs.2 hspelled), ?_, ?_⟩
      · exact (State.Takes.mark hmark).trans htakes
      · exact hbuild.map fun inner => Expr.unary op inner s.current.loc
    · exact (call (expressionOver (unary room)) s).mono fun _ _ _ ⟨e, he⟩ => ⟨.operand e, he⟩

theorem expression (room : Nat) : SavesPhrase .expression (expression room) :=
  expressionOver (unary room)

end SavesPhrase

end

end Ember.Parser
