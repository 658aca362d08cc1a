import Ember.Proofs.Parser.Exact
import Ember.Proofs.Sound.Tree

namespace Ember

theorem Expr.Sound.mono {tokens : List Token} {table table' : SymbolTable} {e : Expr}
    (hkeeps : table.Keeps table') (h : e.Sound tokens table) : e.Sound tokens table' :=
  Outline.All.mono (fun _ _ => Head.Sound.mono hkeeps) _ h

theorem Stmt.Sound.mono {tokens : List Token} {table table' : SymbolTable} {s : Stmt}
    (hkeeps : table.Keeps table') (h : s.Sound tokens table) : s.Sound tokens table' :=
  Outline.All.mono (fun _ _ => Head.Sound.mono hkeeps) _ h

namespace Parser

variable {α β : Type} {tokens : List Token} {s : State} {p : Parser α} {k : α → Parser β}
  {post : SymbolTable → α → Prop} {post' : SymbolTable → β → Prop}

/-- The tokens ahead end the stream, and the names of the table are those of the one before and
more. -/
structure State.Follows (tokens : List Token) (s s' : State) : Prop where
  ahead : s'.ahead <:+ tokens
  keeps : s.table.Keeps s'.table

/-- From the state `s` the parser goes on in the stream and keeps the names of the table, however it
ends. What it gives is as `post` tells of the table at the end. -/
def Gives (tokens : List Token) (p : Parser α) (s : State) (post : SymbolTable → α → Prop) : Prop :=
  match p s with
  | .ok a s' => s.Follows tokens s' ∧ post s'.table a
  | .error _ s' => s.Follows tokens s'

/-- The parser gives this from anywhere in the stream. -/
abbrev GivesAll (tokens : List Token) (p : Parser α) (post : SymbolTable → α → Prop) : Prop :=
  ∀ s : State, s.ahead <:+ tokens → Gives tokens p s post

/-- What is told of a table stays true while names are entered. -/
def Lasting (post : SymbolTable → α → Prop) : Prop :=
  ∀ t t' a, t.Keeps t' → post t a → post t' a

theorem State.advanced_suffix (h : s.ahead <:+ tokens) : s.advanced.ahead <:+ tokens := by
  have hadvance := (Orderly.advance s).1
  exact hadvance.trans h

theorem State.table_eq_advanced (s : State) : s.advanced.table = s.table := by
  unfold advanced
  split <;> rfl

theorem State.current_mem (h : s.ahead <:+ tokens) (hne : s.current.lexeme ≠ .endOfFile) :
    s.current ∈ tokens := by
  refine h.subset ?_
  unfold current at hne ⊢
  cases hahead : s.ahead with
  | nil => simp [hahead] at hne
  | cons t rest => exact List.mem_cons_self

/-- Two tokens that are taken one after the other stand side by side. -/
theorem State.infix_advanced (h : s.ahead <:+ tokens) (hne : s.current.lexeme ≠ .endOfFile)
    (hnext : s.advanced.current.lexeme ≠ .endOfFile) :
    [s.current, s.advanced.current] <:+: tokens := by
  refine List.IsInfix.trans ?_ h.isInfix
  cases hahead : s.ahead with
  | nil => simp [current, hahead] at hne
  | cons t rest =>
    have hcurrent : s.current = t := by simp only [current, hahead]
    have hadvanced : s.advanced.ahead = rest := by simp only [advanced, hahead]
    cases hrest : rest with
    | nil => simp [current, hadvanced, hrest] at hnext
    | cons u rest' =>
      have hsecond : s.advanced.current = u := by simp only [current, hadvanced, hrest]
      rw [hcurrent, hsecond]
      exact ⟨[], rest', rfl⟩

namespace Gives

theorem pure {a : α} (hs : s.ahead <:+ tokens) (h : post s.table a) :
    Gives tokens (Pure.pure a) s post := ⟨⟨hs, .refl _⟩, h⟩

theorem bind (hp : Gives tokens p s post)
    (hk : ∀ a s', s.Follows tokens s' → post s'.table a → Gives tokens (k a) s' post') :
    Gives tokens (p >>= k) s post' := by
  unfold Gives at hp ⊢
  cases hrun : p s with
  | ok a s' =>
    rw [hrun] at hp
    rw [bind_of_ok hrun]
    have hnext := hk a s' hp.1 hp.2
    unfold Gives at hnext
    cases hrun' : k a s' with
    | ok b s'' =>
      rw [hrun'] at hnext
      exact ⟨⟨hnext.1.ahead, hp.1.keeps.trans hnext.1.keeps⟩, hnext.2⟩
    | error d s'' =>
      rw [hrun'] at hnext
      exact ⟨hnext.ahead, hp.1.keeps.trans hnext.keeps⟩
  | error d s' =>
    rw [hrun] at hp
    rw [bind_of_error hrun]
    exact hp

theorem map {f : α → β} (hp : Gives tokens p s post) (h : ∀ t a, post t a → post' t (f a)) :
    Gives tokens (f <$> p) s post' := by
  rw [map_eq_pure_bind]
  exact hp.bind fun a s' hs' ha => pure hs'.ahead (h _ a ha)

theorem fail (hs : s.ahead <:+ tokens) (code : Code) (loc : Location)
    (args : List (String × Argument)) : Gives tokens (Parser.fail code loc args) s post :=
  ⟨hs, .refl _⟩

theorem current_bind {k : Token → Parser β} (h : Gives tokens (k s.current) s post') :
    Gives tokens (current >>= k) s post' := h

theorem advance_bind {k : Unit → Parser β} (h : Gives tokens (k ()) s.advanced post') :
    Gives tokens (advance >>= k) s post' := by
  have heq : (advance >>= k) s = k () s.advanced := rfl
  unfold Gives at h ⊢
  rw [heq]
  split at h
  · exact ⟨⟨h.1.ahead, s.table_eq_advanced ▸ h.1.keeps⟩, h.2⟩
  · exact ⟨h.ahead, s.table_eq_advanced ▸ h.keeps⟩

theorem accept_bind {l : Lexeme} {k : Bool → Parser β}
    (htrue : s.current.lexeme = l → Gives tokens (k true) s.advanced post')
    (hfalse : s.current.lexeme ≠ l → Gives tokens (k false) s post') :
    Gives tokens (accept l >>= k) s post' := by
  rw [accept, bind_assoc]
  refine current_bind ?_
  split
  · rename_i hl
    rw [bind_assoc]
    refine advance_bind ?_
    rw [pure_bind]
    exact htrue hl
  · rename_i hl
    rw [pure_bind]
    exact hfalse hl

theorem expect (hs : s.ahead <:+ tokens) (l : Lexeme) :
    Gives tokens (expect l) s fun _ _ => True := by
  refine current_bind ?_
  split
  · exact advance_bind (pure (State.advanced_suffix hs) trivial)
  · exact ⟨hs, .refl _⟩

theorem identifier_bind (hs : s.ahead <:+ tokens) {k : String × Location → Parser β}
    (h : ∀ name, s.current.lexeme = .identifier name →
      Gives tokens (k (name, s.current.loc)) s.advanced post') :
    Gives tokens (identifier >>= k) s post' := by
  rw [identifier, bind_assoc]
  refine current_bind ?_
  split
  · rename_i name hl
    rw [bind_assoc]
    refine advance_bind ?_
    rw [pure_bind]
    exact h name hl
  · exact fail hs _ _ _
  · exact fail hs _ _ _

theorem datatype_bind (hs : s.ahead <:+ tokens) {k : Datatype → Parser β}
    (h : ∀ type, s.current.lexeme.datatype? = some type →
      Gives tokens (k type) s.advanced post') :
    Gives tokens (datatype >>= k) s post' := by
  rw [datatype, bind_assoc]
  refine current_bind ?_
  split
  · rename_i type hl
    rw [bind_assoc]
    refine advance_bind ?_
    rw [pure_bind]
    exact h type hl
  · split
    · exact fail hs _ _ _
    · exact fail hs _ _ _

theorem enter (hs : s.ahead <:+ tokens) (name : String) (type : Datatype) :
    Gives tokens (enter name type) s fun t id =>
      ∃ symbol, t.get? id = some symbol ∧ symbol.name = name :=
  ⟨⟨hs, s.table.keeps_add name type⟩, s.table.get?_add name type⟩

theorem retype (hs : s.ahead <:+ tokens) (id : Int) (type : Datatype) :
    Gives tokens (modify fun s => { s with table := s.table.retype id type }) s fun _ _ => True :=
  ⟨⟨hs, s.table.keeps_retype id type⟩, trivial⟩

theorem attempt (hp : Gives tokens p s post) :
    Gives tokens (attempt p) s fun t r => ∀ a, r = .ok a → post t a := by
  unfold Gives at hp ⊢
  cases hrun : p s with
  | ok a s' =>
    rw [hrun] at hp
    rw [attempt_of_ok hrun]
    refine ⟨hp.1, ?_⟩
    rintro _ ⟨⟩
    exact hp.2
  | error d s' =>
    rw [hrun] at hp
    rw [attempt_of_error hrun]
    exact ⟨hp, nofun⟩

theorem record (hs : s.ahead <:+ tokens) (d : Diagnostic) :
    Gives tokens (record d) s fun _ _ => True := ⟨⟨hs, .refl _⟩, trivial⟩

theorem synchronize (hs : s.ahead <:+ tokens) :
    Gives tokens synchronize s fun _ _ => True :=
  ⟨⟨(Orderly.pastSemicolon_suffix s.last s.ahead).trans hs, .refl _⟩, trivial⟩

theorem skipBraces (hs : s.ahead <:+ tokens) :
    Gives tokens skipBraces s fun _ _ => True :=
  ⟨⟨(Orderly.pastBraces_suffix s.last s.ahead).trans hs, .refl _⟩, trivial⟩

theorem iterateWithin (hlasting : Lasting post) {step : α → Parser (Option α)}
    (hstep : ∀ a (s : State), s.ahead <:+ tokens → post s.table a →
      Gives tokens (step a) s fun t b => ∀ x ∈ b, post t x) :
    ∀ (room : List Token) (a : α) {s : State}, s.ahead <:+ tokens → post s.table a →
      Gives tokens (iterateWithin step room a) s post
  | [], a, s, hs, ha => pure hs ha
  | _ :: room, a, s, hs, ha => by
    refine (hstep a s hs ha).bind fun b s' hs' hb => ?_
    cases b with
    | none => exact pure hs'.ahead (hlasting _ _ a hs'.keeps ha)
    | some b => exact iterateWithin hlasting hstep room b hs'.ahead (hb b rfl)

theorem iterate (hlasting : Lasting post) {step : α → Parser (Option α)}
    (hstep : ∀ a (s : State), s.ahead <:+ tokens → post s.table a →
      Gives tokens (step a) s fun t b => ∀ x ∈ b, post t x) {a : α} (hs : s.ahead <:+ tokens)
    (ha : post s.table a) : Gives tokens (iterate step a) s post :=
  iterateWithin hlasting hstep s.ahead a hs ha

end Gives

theorem lasting_all (h : Lasting post) : Lasting fun t (as : List α) => ∀ a ∈ as, post t a :=
  fun t t' _ hkeeps has a ha => h t t' a hkeeps (has a ha)

theorem GivesAll.commaSeparated (hlasting : Lasting post) (h : GivesAll tokens p post) :
    GivesAll tokens (commaSeparated p) fun t as => ∀ a ∈ as, post t a := by
  intro s hs
  refine (h s hs).bind fun first s₁ hs₁ hfirst => ?_
  refine Gives.iterate (lasting_all hlasting) (fun items s₂ hs₂ hitems => ?_) hs₁.ahead
    (List.forall_mem_singleton.2 hfirst)
  refine Gives.accept_bind (fun _ => ?_) fun _ => Gives.pure hs₂ nofun
  have hitems' := State.table_eq_advanced s₂ ▸ hitems
  refine (h s₂.advanced (State.advanced_suffix hs₂)).bind fun item s₃ hs₃ hitem => ?_
  refine Gives.pure hs₃.ahead ?_
  rintro _ ⟨⟩
  refine List.forall_mem_append.2 ⟨?_, List.forall_mem_singleton.2 hitem⟩
  exact lasting_all hlasting _ _ items hs₃.keeps hitems'

theorem GivesAll.closedBy (hlasting : Lasting post) (l : Lexeme) {absent : Location → α}
    (habsent : ∀ t loc, post t (absent loc)) (h : GivesAll tokens p post) :
    GivesAll tokens (closedBy l absent p) post := by
  intro s hs
  have hclose : ∀ a (s' : State), s.Follows tokens s' → post s'.table a → Gives tokens (do
      let _ ← expect l
      return a) s' post := fun a s' hs' ha =>
    (Gives.expect hs'.ahead l).bind fun _ s'' hs'' _ =>
      Gives.pure hs''.ahead (hlasting _ _ a hs''.keeps ha)
  refine Gives.current_bind ?_
  split
  · exact (Gives.pure hs (habsent _ _)).bind hclose
  · exact (h s hs).bind hclose

section

variable {operand expr : Parser Expr} {stmt : Parser Stmt}

theorem lasting_expr : Lasting fun t (e : Expr) => e.Sound tokens t :=
  fun _ _ _ hkeeps h => h.mono hkeeps

theorem lasting_stmt : Lasting fun t (s : Stmt) => s.Sound tokens t :=
  fun _ _ _ hkeeps h => h.mono hkeeps

theorem lasting_param : Lasting fun t (p : Param) => p.Sound tokens t :=
  fun _ _ _ hkeeps h => Outline.All.mono (fun _ _ => Head.Sound.mono hkeeps) _ h

theorem lasting_option (h : Lasting post) : Lasting fun t (a : Option α) => ∀ x ∈ a, post t x :=
  fun t t' _ hkeeps ha x hx => h t t' x hkeeps (ha x hx)

theorem known_of_binaryOp? {l : Lexeme} {op : BinaryOp} (h : binaryOp? l = some op) (code : Int) :
    op ≠ .unknown code := by
  rintro rfl
  cases l with
  | mark m => cases m <;> simp [binaryOp?, Mark.binaryOp?] at h
  | identifier | integer | keyword | endOfFile => simp [binaryOp?] at h

theorem known_of_assignOp? {l : Lexeme} {op : BinaryOp} (h : assignOp? l = some (.compound op))
    (code : Int) : op ≠ .unknown code := by
  rintro rfl
  cases l with
  | mark m => cases m <;> simp [assignOp?, Mark.assignOp?] at h
  | identifier | integer | keyword | endOfFile => simp [assignOp?] at h

theorem isNative_of_integerLiteral? {n : Nat} {l : Literal} (h : integerLiteral? n = some l) :
    l.IsNative := by
  unfold integerLiteral? at h
  split at h
  · cases h
    trivial
  · split at h <;> cases h
    trivial

theorem sound_binary {t : SymbolTable} {op : BinaryOp} {left right : Expr} {loc : Location}
    (hop : ∀ code, op ≠ .unknown code) (hleft : left.Sound tokens t)
    (hright : right.Sound tokens t) :
    (Expr.binary op left right loc).Sound tokens t :=
  ⟨Head.sound_of_plain rfl (fun code h => hop code (Head.binary.inj h)) nofun, hleft, hright,
    trivial⟩

namespace GivesAll

theorem primary (h : GivesAll tokens expr fun t e => e.Sound tokens t) :
    GivesAll tokens (primary expr) fun t e => e.Sound tokens t := by
  intro s hs
  refine Gives.current_bind ?_
  split
  · rename_i name hl
    refine Gives.advance_bind ((Gives.enter (State.advanced_suffix hs) name .empty).bind ?_)
    rintro id s' hs' ⟨symbol, hget, rfl⟩
    have hmem : ⟨.identifier symbol.name, s.current.loc⟩ ∈ tokens := by
      rw [← hl]
      exact State.current_mem hs (by simp [hl])
    refine Gives.pure hs'.ahead ⟨⟨?_, nofun, nofun⟩, trivial⟩
    rintro _ ⟨⟩
    exact ⟨symbol, hget, .var hmem⟩
  · exact Gives.advance_bind (Gives.pure (State.advanced_suffix hs)
      ⟨Head.sound_literal trivial, trivial⟩)
  · exact Gives.advance_bind (Gives.pure (State.advanced_suffix hs)
      ⟨Head.sound_literal trivial, trivial⟩)
  · split
    · rename_i hvalue
      exact Gives.advance_bind (Gives.pure (State.advanced_suffix hs)
        ⟨Head.sound_literal (isNative_of_integerLiteral? hvalue), trivial⟩)
    · exact Gives.fail hs _ _ _
  · refine Gives.advance_bind ((h _ (State.advanced_suffix hs)).bind fun inner s' hs' hinner => ?_)
    refine (Gives.expect hs'.ahead _).bind fun _ s'' hs'' _ => Gives.pure hs''.ahead ?_
    exact ⟨Head.sound_of_plain rfl nofun nofun, hinner.mono hs''.keeps, trivial⟩
  · exact Gives.fail hs _ _ _
  · exact Gives.fail hs _ _ _

theorem arguments (h : GivesAll tokens expr fun t e => e.Sound tokens t) :
    GivesAll tokens (arguments expr) fun t es => ∀ e ∈ es, e.Sound tokens t := by
  rw [arguments_eq]
  exact closedBy (lasting_all lasting_expr) _ (fun _ _ => nofun) (commaSeparated lasting_expr h)

theorem call (h : GivesAll tokens expr fun t e => e.Sound tokens t) :
    GivesAll tokens (call expr) fun t e => e.Sound tokens t := by
  intro s hs
  refine (primary h s hs).bind fun first s₁ hs₁ hfirst => ?_
  refine Gives.iterate lasting_expr (fun callee s₂ hs₂ hcallee => ?_) hs₁.ahead hfirst
  refine Gives.accept_bind (fun _ => ?_) fun _ => Gives.pure hs₂ nofun
  refine (arguments h _ (State.advanced_suffix hs₂)).bind fun args s₃ hs₃ hargs => ?_
  refine Gives.pure hs₃.ahead ?_
  rintro _ ⟨⟩
  have hcallee' := (State.table_eq_advanced s₂ ▸ hcallee : callee.Sound tokens s₂.advanced.table)
  exact ⟨Head.sound_of_plain rfl nofun nofun, hcallee'.mono hs₃.keeps, Expr.allIn_outlines.2 hargs⟩

theorem leftAssociative (precedence : Nat)
    (h : GivesAll tokens operand fun t e => e.Sound tokens t) :
    GivesAll tokens (leftAssociative precedence operand) fun t e => e.Sound tokens t := by
  intro s hs
  refine (h s hs).bind fun first s₁ hs₁ hfirst => ?_
  refine Gives.iterate lasting_expr (fun left s₂ hs₂ hleft => ?_) hs₁.ahead hfirst
  refine Gives.current_bind ?_
  split
  · rename_i op hop
    split
    · refine Gives.advance_bind
        ((h _ (State.advanced_suffix hs₂)).bind fun right s₃ hs₃ hright => ?_)
      refine Gives.pure hs₃.ahead ?_
      rintro _ ⟨⟩
      have hleft' := (State.table_eq_advanced s₂ ▸ hleft : left.Sound tokens s₂.advanced.table)
      exact sound_binary (known_of_binaryOp? hop) (hleft'.mono hs₃.keeps) hright
    · exact Gives.pure hs₂ fun _ hnone => by cases hnone
  · exact Gives.pure hs₂ fun _ hnone => by cases hnone

theorem binary (h : GivesAll tokens operand fun t e => e.Sound tokens t) :
    GivesAll tokens (binary operand) fun t e => e.Sound tokens t :=
  leftAssociative 1 (leftAssociative 2 (leftAssociative 3 (leftAssociative 4 h)))

/-- The target of a compound assignment stands in the tree twice. -/
theorem assignmentWithin (h : GivesAll tokens operand fun t e => e.Sound tokens t) :
    (room : List Token) →
      GivesAll tokens (assignmentWithin operand room) fun t e => e.Sound tokens t
  | [] => binary h
  | _ :: room => by
    intro s hs
    refine (binary h s hs).bind fun target s₁ hs₁ htarget => Gives.current_bind ?_
    split
    · exact Gives.pure hs₁.ahead htarget
    · rename_i op hop
      refine Gives.advance_bind ((assignmentWithin h room _ (State.advanced_suffix hs₁.ahead)).bind
        fun value s₂ hs₂ hvalue => Gives.pure hs₂.ahead ?_)
      have htarget' :=
        (State.table_eq_advanced s₁ ▸ htarget : target.Sound tokens s₁.advanced.table)
      have htarget'' := htarget'.mono hs₂.keeps
      refine ⟨Head.sound_of_plain rfl nofun nofun, htarget'', ?_, trivial⟩
      cases op with
      | plain => exact hvalue
      | compound op => exact sound_binary (known_of_assignOp? hop) htarget'' hvalue

theorem expressionOver (h : GivesAll tokens operand fun t e => e.Sound tokens t) :
    GivesAll tokens (expressionOver operand) fun t e => e.Sound tokens t :=
  fun s hs => assignmentWithin h s.ahead s hs

theorem unary : (room : Nat) → GivesAll tokens (unary room) fun t e => e.Sound tokens t
  | 0 => fun _ hs => Gives.current_bind (Gives.fail hs _ _ _)
  | room + 1 => by
    intro s hs
    refine Gives.current_bind ?_
    split
    · refine Gives.advance_bind ((unary room _ (State.advanced_suffix hs)).bind
        fun inner s' hs' hinner => Gives.pure hs'.ahead ?_)
      exact ⟨Head.sound_of_plain rfl nofun nofun, hinner, trivial⟩
    · exact call (expressionOver (unary room)) s hs

theorem expression (room : Nat) : GivesAll tokens (expression room) fun t e => e.Sound tokens t :=
  expressionOver (unary room)

theorem declarator (type : Datatype) (h : GivesAll tokens expr fun t e => e.Sound tokens t) :
    GivesAll tokens (declarator type expr) fun t s => s.Sound tokens t := by
  intro s hs
  refine Gives.identifier_bind hs fun name hl => ?_
  refine (Gives.enter (State.advanced_suffix hs) name type).bind ?_
  rintro id s₁ hs₁ ⟨symbol, hget, rfl⟩
  have hmem : ⟨.identifier symbol.name, s.current.loc⟩ ∈ tokens := by
    rw [← hl]
    exact State.current_mem hs (by simp [hl])
  have hhead : (Head.varDecl type id).Sound tokens s₁.table s.current.loc := by
    refine ⟨?_, nofun, nofun⟩
    rintro _ ⟨⟩
    exact ⟨symbol, hget, .varDecl hmem⟩
  refine Gives.accept_bind (fun _ => ?_) fun _ => Gives.pure hs₁.ahead ⟨hhead, trivial⟩
  refine (h _ (State.advanced_suffix hs₁.ahead)).bind fun init s₂ hs₂ hinit => ?_
  exact Gives.pure hs₂.ahead
    ⟨(State.table_eq_advanced s₁ ▸ hhead : Head.Sound tokens s₁.advanced.table _ _).mono hs₂.keeps,
      hinit, trivial⟩

theorem variableDecls (h : GivesAll tokens expr fun t e => e.Sound tokens t) :
    GivesAll tokens (variableDecls expr) fun t ss => ∀ s ∈ ss, s.Sound tokens t := by
  intro s hs
  refine Gives.datatype_bind hs fun type _ => ?_
  refine (commaSeparated lasting_stmt (declarator type h) _ (State.advanced_suffix hs)).bind
    fun vars s₁ hs₁ hvars => ?_
  exact (Gives.expect hs₁.ahead _).bind fun _ s₂ hs₂ _ =>
    Gives.pure hs₂.ahead (lasting_all lasting_stmt _ _ vars hs₂.keeps hvars)

theorem exprStmt (h : GivesAll tokens expr fun t e => e.Sound tokens t) :
    GivesAll tokens (exprStmt expr) fun t s => s.Sound tokens t :=
  fun s hs => Gives.current_bind ((h s hs).bind fun _ _ hs' he =>
    Gives.pure hs'.ahead ⟨Head.sound_of_plain rfl nofun nofun, he, trivial⟩)

theorem entry (h : GivesAll tokens expr fun t e => e.Sound tokens t)
    (hstmt : GivesAll tokens stmt fun t s => s.Sound tokens t) :
    GivesAll tokens (entry expr stmt) fun t ss => ∀ s ∈ ss, s.Sound tokens t := by
  intro s hs
  refine Gives.current_bind ?_
  split
  · exact variableDecls h s hs
  · exact (hstmt s hs).bind fun _ _ hs' hstmt' =>
      Gives.pure hs'.ahead (List.forall_mem_singleton.2 hstmt')

/-- An entry that cannot be read leaves what was read before it. -/
theorem entryStep (h : GivesAll tokens expr fun t e => e.Sound tokens t)
    (hstmt : GivesAll tokens stmt fun t s => s.Sound tokens t) (body : List Stmt) (s : State)
    (hs : s.ahead <:+ tokens) (hbody : ∀ x ∈ body, x.Sound tokens s.table) :
    Gives tokens (entryStep expr stmt body) s
      fun t b => ∀ body' ∈ b, ∀ x ∈ body', x.Sound tokens t := by
  refine Gives.current_bind ?_
  dsimp only
  split
  · exact Gives.pure hs nofun
  refine (entry h hstmt s hs).attempt.bind fun r s₁ hs₁ hr => ?_
  have hbody' := lasting_all lasting_stmt _ _ body hs₁.keeps hbody
  cases r with
  | ok stmts =>
    refine Gives.pure hs₁.ahead ?_
    rintro _ ⟨⟩
    exact List.forall_mem_append.2 ⟨hbody', hr stmts rfl⟩
  | error d =>
    refine (Gives.record hs₁.ahead d).bind fun _ s₂ hs₂ _ => ?_
    refine (Gives.synchronize hs₂.ahead).bind fun _ s₃ hs₃ _ => Gives.pure hs₃.ahead ?_
    rintro _ ⟨⟩
    exact lasting_all lasting_stmt _ _ body (hs₂.keeps.trans hs₃.keeps) hbody'

theorem block (h : GivesAll tokens expr fun t e => e.Sound tokens t)
    (hstmt : GivesAll tokens stmt fun t s => s.Sound tokens t) :
    GivesAll tokens (block expr stmt) fun t b => ∀ s ∈ b.1, s.Sound tokens t := by
  intro s hs
  rw [block_eq]
  refine (Gives.expect hs _).bind fun loc s₁ hs₁ _ => ?_
  have htail := Gives.iterate (lasting_all lasting_stmt) (entryStep h hstmt) hs₁.ahead
    (List.forall_mem_nil _)
  refine htail.bind fun body s₂ hs₂ hbody => ?_
  exact (Gives.expect hs₂.ahead _).bind fun _ s₃ hs₃ _ =>
    Gives.pure hs₃.ahead (lasting_all lasting_stmt _ _ body hs₃.keeps hbody)

theorem condition (h : GivesAll tokens expr fun t e => e.Sound tokens t) :
    GivesAll tokens (condition expr) fun t e => e.Sound tokens t := by
  intro s hs
  refine (Gives.expect hs _).bind fun _ s₁ hs₁ _ => ?_
  refine (h s₁ hs₁.ahead).bind fun cond s₂ hs₂ hcond => ?_
  exact (Gives.expect hs₂.ahead _).bind fun _ s₃ hs₃ _ =>
    Gives.pure hs₃.ahead (hcond.mono hs₃.keeps)

theorem conditional (h : GivesAll tokens expr fun t e => e.Sound tokens t)
    (hstmt : GivesAll tokens stmt fun t s => s.Sound tokens t) (loc : Location) :
    GivesAll tokens (conditional expr stmt loc) fun t s => s.Sound tokens t := by
  intro s hs
  refine Gives.advance_bind ?_
  refine (condition h _ (State.advanced_suffix hs)).bind fun cond s₁ hs₁ hcond => ?_
  refine (hstmt s₁ hs₁.ahead).bind fun body s₂ hs₂ hbody => ?_
  have hcond' := hcond.mono hs₂.keeps
  refine Gives.accept_bind (fun _ => ?_) fun _ => Gives.pure hs₂.ahead
    ⟨Head.sound_of_plain rfl nofun nofun, hcond', hbody, trivial⟩
  refine (hstmt _ (State.advanced_suffix hs₂.ahead)).bind fun other s₃ hs₃ hother => ?_
  have hkeeps := State.table_eq_advanced s₂ ▸ hs₃.keeps
  exact Gives.pure hs₃.ahead ⟨Head.sound_of_plain rfl nofun nofun, hcond'.mono hkeeps,
    hbody.mono hkeeps, hother, trivial⟩

theorem whileLoop (h : GivesAll tokens expr fun t e => e.Sound tokens t)
    (hstmt : GivesAll tokens stmt fun t s => s.Sound tokens t) (loc : Location) :
    GivesAll tokens (whileLoop expr stmt loc) fun t s => s.Sound tokens t := by
  intro s hs
  refine Gives.advance_bind ?_
  refine (condition h _ (State.advanced_suffix hs)).bind fun cond s₁ hs₁ hcond => ?_
  refine (hstmt s₁ hs₁.ahead).bind fun body s₂ hs₂ hbody => Gives.pure hs₂.ahead ?_
  exact ⟨Head.sound_of_plain rfl nofun nofun, hcond.mono hs₂.keeps, hbody, trivial⟩

/-- The body stands in the tree twice. -/
theorem doLoop (h : GivesAll tokens expr fun t e => e.Sound tokens t)
    (hstmt : GivesAll tokens stmt fun t s => s.Sound tokens t) (loc : Location) :
    GivesAll tokens (doLoop expr stmt loc) fun t s => s.Sound tokens t := by
  intro s hs
  refine Gives.advance_bind ?_
  refine (hstmt _ (State.advanced_suffix hs)).bind fun body s₁ hs₁ hbody => ?_
  refine (Gives.expect hs₁.ahead _).bind fun _ s₂ hs₂ _ => ?_
  refine (condition h s₂ hs₂.ahead).bind fun cond s₃ hs₃ hcond => ?_
  refine (Gives.expect hs₃.ahead _).bind fun _ s₄ hs₄ _ => Gives.pure hs₄.ahead ?_
  have hbody' := hbody.mono (hs₂.keeps.trans (hs₃.keeps.trans hs₄.keeps))
  exact ⟨Head.sound_of_plain rfl nofun nofun, hbody', ⟨Head.sound_of_plain rfl nofun nofun,
    hcond.mono hs₄.keeps, hbody', trivial⟩, trivial⟩

theorem forInit (h : GivesAll tokens expr fun t e => e.Sound tokens t) :
    GivesAll tokens (forInit expr) fun t ss => ∀ s ∈ ss, s.Sound tokens t := by
  intro s hs
  refine Gives.accept_bind (fun _ => Gives.pure (State.advanced_suffix hs) nofun) fun _ => ?_
  refine Gives.current_bind ?_
  split
  · exact variableDecls h s hs
  · refine (exprStmt h s hs).bind fun init s₁ hs₁ hinit => ?_
    exact (Gives.expect hs₁.ahead _).bind fun _ s₂ hs₂ _ =>
      Gives.pure hs₂.ahead (List.forall_mem_singleton.2 (hinit.mono hs₂.keeps))

theorem forCondition (h : GivesAll tokens expr fun t e => e.Sound tokens t) :
    GivesAll tokens (forCondition expr) fun t e => e.Sound tokens t := by
  rw [forCondition_eq]
  exact closedBy lasting_expr _ (fun _ _ => ⟨Head.sound_literal trivial, trivial⟩) h

theorem forStep (h : GivesAll tokens expr fun t e => e.Sound tokens t) :
    GivesAll tokens (forStep expr) fun t s => ∀ x ∈ s, x.Sound tokens t := by
  rw [forStep_eq]
  refine closedBy (lasting_option lasting_stmt) _ (fun _ _ => nofun) fun s hs => ?_
  refine (exprStmt h s hs).map fun t step hstep => ?_
  rintro _ ⟨⟩
  exact hstep

theorem sound_withStep {t : SymbolTable} {body : Stmt} {step : Option Stmt}
    (hbody : body.Sound tokens t) (hstep : ∀ x ∈ step, x.Sound tokens t) :
    (withStep body step).Sound tokens t := by
  cases step with
  | none => exact hbody
  | some step => exact ⟨Head.sound_of_plain rfl nofun nofun, hbody, hstep step rfl, trivial⟩

theorem forLoop (h : GivesAll tokens expr fun t e => e.Sound tokens t)
    (hstmt : GivesAll tokens stmt fun t s => s.Sound tokens t) (loc : Location) :
    GivesAll tokens (forLoop expr stmt loc) fun t s => s.Sound tokens t := by
  intro s hs
  refine Gives.advance_bind ?_
  refine (Gives.expect (State.advanced_suffix hs) _).bind fun _ s₁ hs₁ _ => ?_
  refine (forInit h s₁ hs₁.ahead).bind fun init s₂ hs₂ hinit => ?_
  refine (forCondition h s₂ hs₂.ahead).bind fun cond s₃ hs₃ hcond => ?_
  refine (forStep h s₃ hs₃.ahead).bind fun step s₄ hs₄ hstep => ?_
  refine (hstmt s₄ hs₄.ahead).bind fun body s₅ hs₅ hbody => Gives.pure hs₅.ahead ?_
  have hkeeps := hs₄.keeps.trans hs₅.keeps
  have hloop : (Stmt.loop cond (withStep body step) loc).Sound tokens s₅.table :=
    ⟨Head.sound_of_plain rfl nofun nofun, hcond.mono hkeeps,
      sound_withStep hbody (lasting_option lasting_stmt _ _ step hs₅.keeps hstep), trivial⟩
  refine ⟨Head.sound_of_plain rfl nofun nofun,
    Stmt.allIn_outlines.2 (List.forall_mem_append.2 ⟨?_, ?_⟩)⟩
  · exact lasting_all lasting_stmt _ _ init (hs₃.keeps.trans hkeeps) hinit
  · exact List.forall_mem_singleton.2 hloop

theorem returning (h : GivesAll tokens expr fun t e => e.Sound tokens t) (loc : Location) :
    GivesAll tokens (returning expr loc) fun t s => s.Sound tokens t := by
  intro s hs
  rw [returning_eq]
  refine Gives.advance_bind ?_
  have hvalue : GivesAll tokens (Parser.closedBy (.mark .semicolon) (fun _ => none) (some <$> expr))
      fun t e => ∀ x ∈ e, x.Sound tokens t := by
    refine closedBy (lasting_option lasting_expr) _ (fun _ _ => nofun) fun s hs => ?_
    refine (h s hs).map fun t e he => ?_
    rintro _ ⟨⟩
    exact he
  refine (hvalue _ (State.advanced_suffix hs)).bind fun value s₁ hs₁ hvalue => ?_
  exact Gives.pure hs₁.ahead ⟨Head.sound_of_plain rfl nofun nofun, Expr.allIn_option.2 hvalue⟩

theorem statement : (room : Nat) → GivesAll tokens (statement room) fun t s => s.Sound tokens t
  | 0 => fun _ hs => Gives.current_bind (Gives.fail hs _ _ _)
  | room + 1 => by
    intro s hs
    have hexpr : GivesAll tokens (Parser.expression room) fun t e => e.Sound tokens t :=
      expression room
    refine Gives.current_bind ?_
    split
    · refine (block hexpr (statement room) s hs).bind fun b s₁ hs₁ hbody => Gives.pure hs₁.ahead ?_
      exact ⟨Head.sound_of_plain rfl nofun nofun, Stmt.allIn_outlines.2 hbody⟩
    · exact conditional hexpr (statement room) _ s hs
    · exact doLoop hexpr (statement room) _ s hs
    · exact forLoop hexpr (statement room) _ s hs
    · exact whileLoop hexpr (statement room) _ s hs
    · exact returning hexpr _ s hs
    · refine (exprStmt hexpr s hs).bind fun stmt s₁ hs₁ hstmt => ?_
      exact (Gives.expect hs₁.ahead _).bind fun _ s₂ hs₂ _ =>
        Gives.pure hs₂.ahead (hstmt.mono hs₂.keeps)

/-- The name of a parameter follows its type. -/
theorem param : GivesAll tokens param fun t p => p.Sound tokens t := by
  intro s hs
  refine Gives.current_bind (Gives.datatype_bind hs fun type htype => ?_)
  refine Gives.identifier_bind (State.advanced_suffix hs) fun name hname => ?_
  refine (Gives.enter (State.advanced_suffix (State.advanced_suffix hs)) name type).bind ?_
  rintro id s₁ hs₁ ⟨symbol, hget, rfl⟩
  have hpair : [⟨s.current.lexeme, s.current.loc⟩,
      ⟨.identifier symbol.name, s.advanced.current.loc⟩] <:+: tokens := by
    rw [← hname]
    exact State.infix_advanced hs (fun hend => by simp [hend, Lexeme.datatype?] at htype)
      (by simp [hname])
  refine Gives.pure hs₁.ahead ⟨⟨?_, (fun _ h => by cases h), fun _ h => by cases h⟩, trivial⟩
  rintro _ ⟨⟩
  exact ⟨symbol, hget, .param htype hpair⟩

theorem params : GivesAll tokens params fun t ps => ∀ p ∈ ps, p.Sound tokens t := by
  intro s hs
  rw [params_eq]
  refine (Gives.expect hs _).bind fun _ s₁ hs₁ _ => ?_
  exact closedBy (lasting_all lasting_param) _ (fun _ _ => List.forall_mem_nil _)
    (commaSeparated lasting_param param) s₁ hs₁.ahead

/-- The name of a function follows its keyword. -/
theorem function (room : Nat) {s : State} (hs : s.ahead <:+ tokens)
    (hkeyword : s.current.lexeme = .keyword .fnKw) :
    Gives tokens (function room) s fun t s => s.Sound tokens t := by
  refine Gives.current_bind (Gives.advance_bind ?_)
  refine Gives.identifier_bind (State.advanced_suffix hs) fun name hname => ?_
  refine (Gives.enter (State.advanced_suffix (State.advanced_suffix hs)) name .empty).bind ?_
  rintro id s₁ hs₁ ⟨symbol, hget, rfl⟩
  have hpair : [⟨.keyword .fnKw, s.current.loc⟩,
      ⟨.identifier symbol.name, s.advanced.current.loc⟩] <:+: tokens := by
    rw [← hname, ← hkeyword]
    exact State.infix_advanced hs (by simp [hkeyword]) (by simp [hname])
  refine (params s₁ hs₁.ahead).bind fun params s₂ hs₂ hparams => ?_
  refine (Gives.expect hs₂.ahead _).bind fun _ s₃ hs₃ _ => ?_
  refine Gives.datatype_bind hs₃.ahead fun result _ => ?_
  refine (Gives.retype (State.advanced_suffix hs₃.ahead) id result).bind fun _ s₄ hs₄ _ => ?_
  refine (block (expression room) (statement room) s₄ hs₄.ahead).bind fun b s₅ hs₅ hbody => ?_
  have hkeeps : s₂.table.Keeps s₅.table :=
    hs₃.keeps.trans ((State.table_eq_advanced s₃ ▸ hs₄.keeps).trans hs₅.keeps)
  have hhead : (Head.function id result).Sound tokens s₁.table s.current.loc := by
    refine ⟨?_, nofun, nofun⟩
    rintro _ ⟨⟩
    exact ⟨symbol, hget, .function hpair⟩
  exact Gives.pure hs₅.ahead (Stmt.all_function.2 ⟨hhead.mono (hs₂.keeps.trans hkeeps),
    lasting_all lasting_param _ _ params hkeeps hparams, Head.sound_of_plain rfl nofun nofun,
    hbody⟩)

theorem declaration (room : Nat) :
    GivesAll tokens (declaration room) fun t ss => ∀ s ∈ ss, s.Sound tokens t := by
  intro s hs
  refine Gives.current_bind ?_
  split
  · rename_i hkeyword
    exact (function room hs hkeyword).bind fun f s₁ hs₁ hf =>
      Gives.pure hs₁.ahead (List.forall_mem_singleton.2 hf)
  · exact entry (expression room) (statement room) s hs

/-- A declaration that cannot be read leaves what was read before it. -/
theorem declarationStep (room : Nat) (body : List Stmt) (s : State)
    (hs : s.ahead <:+ tokens) (hbody : ∀ x ∈ body, x.Sound tokens s.table) :
    Gives tokens (declarationStep room body) s fun t b =>
      ∀ body' ∈ b, ∀ x ∈ body', x.Sound tokens t := by
  refine Gives.current_bind ?_
  split
  · exact Gives.pure hs nofun
  refine (declaration room s hs).attempt.bind fun r s₁ hs₁ hr => ?_
  have hbody' := lasting_all lasting_stmt _ _ body hs₁.keeps hbody
  cases r with
  | ok stmts =>
    refine Gives.pure hs₁.ahead ?_
    rintro _ ⟨⟩
    exact List.forall_mem_append.2 ⟨hbody', hr stmts rfl⟩
  | error d =>
    refine (Gives.record hs₁.ahead d).bind fun _ s₂ hs₂ _ => ?_
    refine (Gives.synchronize hs₂.ahead).bind fun _ s₃ hs₃ _ => ?_
    refine (Gives.skipBraces hs₃.ahead).bind fun _ s₄ hs₄ _ => Gives.pure hs₄.ahead ?_
    rintro _ ⟨⟩
    exact lasting_all lasting_stmt _ _ body (hs₂.keeps.trans (hs₃.keeps.trans hs₄.keeps)) hbody'

theorem declarations (room : Nat) :
    GivesAll tokens (declarations room) fun t ss => ∀ s ∈ ss, s.Sound tokens t := by
  intro s hs
  rw [declarations_eq]
  exact Gives.iterate (lasting_all lasting_stmt) (declarationStep room) hs (List.forall_mem_nil _)

end GivesAll

end

end Parser

open Ember.Parser in
/-- What is read of a source text is sound, however much of the text cannot be read. -/
theorem Program.sound_parse (file : String) (source : Source) (table : SymbolTable) :
    let parsed := Program.parse file source table
    table.Keeps parsed.table ∧ ∀ s ∈ parsed.program.body,
      s.Sound (TokenStream.ofSource file source).tokens parsed.table := by
  intro parsed
  let stream := TokenStream.ofSource file source
  have hgives : Gives stream.tokens (declarations maxDepth) (State.start stream table)
      fun t ss => ∀ s ∈ ss, s.Sound stream.tokens t :=
    GivesAll.declarations maxDepth _ (List.suffix_refl _)
  obtain ⟨body, s, hrun⟩ := declarations_ok maxDepth (State.start stream table)
  have hparsed : parsed = ⟨⟨file, body⟩, s.table, Report.sorted (stream.report ++ s.report)⟩ :=
    TokenStream.parseWithin_of_ok hrun
  unfold Gives at hgives
  rw [hrun] at hgives
  rw [hparsed]
  exact ⟨hgives.1.keeps, hgives.2⟩

/-- Every node of a program that is read names what is spelled where the node stands. -/
theorem Program.sound_entries (file : String) (source : Source) (table : SymbolTable) :
    let parsed := Program.parse file source table
    ∀ e ∈ parsed.program.entries,
      e.head.Sound (TokenStream.ofSource file source).tokens parsed.table e.loc := by
  intro parsed
  obtain ⟨-, hbody⟩ := Program.sound_parse file source table
  refine Outline.All.entriesFrom _ ?_ _ _ _
  exact ⟨Head.sound_of_plain rfl nofun nofun, Stmt.allIn_outlines.2 hbody⟩

end Ember
