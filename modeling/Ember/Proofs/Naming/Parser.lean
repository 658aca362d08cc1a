import Ember.Proofs.Naming.Table
import Ember.Proofs.Naming.Tree
import Ember.Proofs.Parser.Exact

namespace Ember

def Token.Alike (q : Location → Location → Prop) (t t' : Token) : Prop :=
  t.lexeme = t'.lexeme ∧ q t.loc t'.loc

structure Diagnostic.Alike (q : Location → Location → Prop) (d d' : Diagnostic) : Prop where
  code : d.code = d'.code
  loc : q d.loc d'.loc
  args : d.args = d'.args

namespace Parser

variable {α α' β β' : Type}

structure State.Alike (T : SymbolTable → SymbolTable → Prop) (q : Location → Location → Prop)
    (s s' : State) : Prop where
  ahead : List.Forall₂ (Token.Alike q) s.ahead s'.ahead
  finish : q s.finish s'.finish
  last : Option.Rel q s.last s'.last
  table : T s.table s'.table
  report : List.Forall₂ (Diagnostic.Alike q) s.report s'.report

/-- Results that correspond. Ids that had one name still have, and values are related by the names
that are known then. -/
inductive Matched (T : SymbolTable → SymbolTable → Prop) (q : Location → Location → Prop)
    (r : Int → Int → Prop) (R : (Int → Int → Prop) → α → α' → Prop) :
    EStateM.Result Diagnostic State α → EStateM.Result Diagnostic State α' → Prop
  | ok {a : α} {a' : α'} {s s' : State} (r' : Int → Int → Prop) (hs : s.Alike T q s')
    (hle : ∀ x y, r x y → r' x y) (hnames : ∀ x y, r' x y → s.table.SameName s'.table x y)
    (ha : R r' a a') : Matched T q r R (.ok a s) (.ok a' s')
  | error {d d' : Diagnostic} {s s' : State} (hs : s.Alike T q s')
    (hnames : ∀ x y, r x y → s.table.SameName s'.table x y) (hd : d.Alike q d') :
    Matched T q r R (.error d s) (.error d' s')

/-- From corresponding states, where ids related by `r` have one name, the parsers come to
corresponding results. -/
def Alike (T : SymbolTable → SymbolTable → Prop) (q : Location → Location → Prop)
    (r : Int → Int → Prop) (R : (Int → Int → Prop) → α → α' → Prop) (p : Parser α)
    (p' : Parser α') : Prop :=
  ∀ s s' : State, s.Alike T q s' → (∀ x y, r x y → s.table.SameName s'.table x y) →
    Matched T q r R (p s) (p' s')

namespace Alike

variable {T : SymbolTable → SymbolTable → Prop} {q : Location → Location → Prop}
  {r : Int → Int → Prop} {R : (Int → Int → Prop) → α → α' → Prop}
  {S : (Int → Int → Prop) → β → β' → Prop} {p : Parser α} {p' : Parser α'}

theorem pure {a : α} {a' : α'} (h : R r a a') :
    Alike T q r R (Pure.pure a) (Pure.pure a') :=
  fun _ _ hs hr => .ok r hs (fun _ _ h => h) hr h

theorem bind {k : α → Parser β} {k' : α' → Parser β'} (hp : Alike T q r R p p')
    (hk : ∀ (r' : Int → Int → Prop) a a', (∀ x y, r x y → r' x y) → R r' a a' →
      Alike T q r' S (k a) (k' a')) :
    Alike T q r S (p >>= k) (p' >>= k') := by
  intro s s' hs hr
  have hfirst := hp s s' hs hr
  generalize hrun : p s = x, hrun' : p' s' = x' at hfirst
  cases hfirst with
  | @ok a a' t t' r' ht hle hr' ha =>
    rw [bind_of_ok hrun, bind_of_ok hrun']
    have hrest := hk r' a a' hle ha t t' ht hr'
    generalize k a t = y, k' a' t' = y' at hrest ⊢
    cases hrest with
    | ok r'' hu hle' hr'' hb => exact .ok r'' hu (fun x y h => hle' x y (hle x y h)) hr'' hb
    | error hu hr'' hd => exact .error hu (fun x y h => hr'' x y (hle x y h)) hd
  | error ht hr' hd =>
    rw [bind_of_error hrun, bind_of_error hrun']
    exact .error ht hr' hd

/-- Values may be related more loosely. -/
theorem imp {R' : (Int → Int → Prop) → α → α' → Prop} (hp : Alike T q r R p p')
    (himp : ∀ r' a a', R r' a a' → R' r' a a') : Alike T q r R' p p' := by
  intro s s' hs hr
  have hfirst := hp s s' hs hr
  generalize p s = x, p' s' = x' at hfirst ⊢
  cases hfirst with
  | ok r' ht hle hr' ha => exact .ok r' ht hle hr' (himp _ _ _ ha)
  | error ht hr' hd => exact .error ht hr' hd

theorem map {f : α → β} {f' : α' → β'} (hp : Alike T q r R p p')
    (hf : ∀ r' a a', R r' a a' → S r' (f a) (f' a')) : Alike T q r S (f <$> p) (f' <$> p') := by
  rw [map_eq_pure_bind, map_eq_pure_bind]
  exact hp.bind fun r' a a' _ ha => pure (hf r' a a' ha)

theorem ite {c : Prop} [Decidable c] {p₁ p₂ : Parser α} {p₁' p₂' : Parser α'}
    (h₁ : Alike T q r R p₁ p₁') (h₂ : Alike T q r R p₂ p₂') :
    Alike T q r R (if c then p₁ else p₂) (if c then p₁' else p₂') := by
  split
  · exact h₁
  · exact h₂

theorem fail (code : Code) {loc loc' : Location} (hloc : q loc loc')
    (args : List (String × Argument)) :
    Alike T q r R (Parser.fail code loc args) (Parser.fail code loc' args) :=
  fun _ _ hs hr => .error hs hr ⟨rfl, hloc, rfl⟩

theorem get : Alike T q r (fun _ s s' => List.Forall₂ (Token.Alike q) s.ahead s'.ahead)
    (MonadState.get : Parser State) MonadState.get :=
  fun _ _ hs hr => .ok r hs (fun _ _ h => h) hr hs.ahead

/-- A change of the state that leaves the table alone. -/
theorem update {f f' : State → State}
    (hf : ∀ s s' : State, s.Alike T q s' → (f s).Alike T q (f' s'))
    (htable : ∀ s : State, (f s).table = s.table) (htable' : ∀ s : State, (f' s).table = s.table) :
    Alike T q r (fun _ _ _ => True) (modify f : Parser Unit) (modify f' : Parser Unit) := by
  intro s s' hs hr
  refine .ok r (hf s s' hs) (fun _ _ h => h) (fun x y h => ?_) trivial
  rw [htable, htable']
  exact hr x y h

end Alike

section

variable {T : SymbolTable → SymbolTable → Prop} {q : Location → Location → Prop} {s s' : State}

theorem State.Alike.current (h : s.Alike T q s') : Token.Alike q s.current s'.current := by
  have hahead := h.ahead
  unfold State.current
  cases hs : s.ahead with
  | nil =>
    rw [hs] at hahead
    rw [List.forall₂_nil_left_iff.1 hahead]
    exact ⟨rfl, h.finish⟩
  | cons t rest =>
    rw [hs] at hahead
    obtain ⟨t', rest', ht, _, hs'⟩ := List.forall₂_cons_left_iff.1 hahead
    rw [hs']
    exact ht

theorem State.Alike.advanced (h : s.Alike T q s') : s.advanced.Alike T q s'.advanced := by
  have hahead := h.ahead
  unfold State.advanced
  cases hs : s.ahead with
  | nil =>
    rw [hs] at hahead
    rw [List.forall₂_nil_left_iff.1 hahead]
    exact h
  | cons t rest =>
    rw [hs] at hahead
    obtain ⟨t', rest', ht, hrest, hs'⟩ := List.forall₂_cons_left_iff.1 hahead
    rw [hs']
    exact ⟨hrest, h.finish, .some ht.2, h.table, h.report⟩

theorem State.table_advanced (s : State) : s.advanced.table = s.table := by
  unfold State.advanced
  split <;> rfl

end

namespace Alike

section

variable {T : SymbolTable → SymbolTable → Prop} {q : Location → Location → Prop}
  {r : Int → Int → Prop} {R : (Int → Int → Prop) → α → α' → Prop} {p : Parser α} {p' : Parser α'}

theorem current : Alike T q r (fun _ => Token.Alike q) Parser.current Parser.current :=
  fun _ _ hs hr => .ok r hs (fun _ _ h => h) hr hs.current

theorem advance : Alike T q r (fun _ _ _ => True) Parser.advance Parser.advance :=
  update (fun _ _ hs => hs.advanced) State.table_advanced State.table_advanced

theorem accept (l : Lexeme) :
    Alike T q r (fun _ => Eq) (Parser.accept l) (Parser.accept l) := by
  refine current.bind fun r' t t' _ ht => ?_
  rw [ht.1]
  exact ite (advance.bind fun _ _ _ _ _ => pure rfl) (pure rfl)

theorem expect (l : Lexeme) : Alike T q r (fun _ => q) (Parser.expect l) (Parser.expect l) := by
  refine current.bind fun r' t t' _ ht => ?_
  rw [ht.1]
  refine ite (advance.bind fun _ _ _ _ _ => pure ht.2) fun s s' hs hr => ?_
  have hlast : q (s.last.getD t.loc) (s'.last.getD t'.loc) := by
    have hlast := hs.last
    cases hs₁ : s.last <;> cases hs₂ : s'.last <;> rw [hs₁, hs₂] at hlast <;> cases hlast
    · exact ht.2
    · assumption
  exact fail _ hlast _ s s' hs hr

theorem identifier : Alike T q r (fun _ x y => x.1 = y.1 ∧ q x.2 y.2) Parser.identifier
    Parser.identifier := by
  refine current.bind fun r' t t' _ ht => ?_
  rw [ht.1]
  split
  · exact advance.bind fun _ _ _ _ _ => pure ⟨rfl, ht.2⟩
  · exact fail _ ht.2 _
  · exact fail _ ht.2 _

theorem datatype : Alike T q r (fun _ => Eq) Parser.datatype Parser.datatype := by
  refine current.bind fun r' t t' _ ht => ?_
  rw [ht.1]
  split
  · exact advance.bind fun _ _ _ _ _ => pure rfl
  · exact ite (fail _ ht.2 _) (fail _ ht.2 _)

/-- A name has ids of its own in both tables. -/
theorem enter (hT : SymbolTable.Lasting T) (name : String) (type : Datatype) :
    Alike T q r (fun r => r) (Parser.enter name type) (Parser.enter name type) := by
  intro s s' hs hr
  have hkeeps := s.table.keeps_add name type
  have hkeeps' := s'.table.keeps_add name type
  refine .ok _ ⟨hs.ahead, hs.finish, hs.last, hT.add hs.table name type, hs.report⟩ ?_
    (fun _ _ h => h) (SymbolTable.sameName_add _ _ _ _)
  exact fun x y h => (hr x y h).mono hkeeps hkeeps'

theorem retype (hT : SymbolTable.Lasting T) {a b : Int} (hid : r a b) (type : Datatype) :
    Alike T q r (fun _ _ _ => True)
      (modify fun s => { s with table := s.table.retype a type } : Parser Unit)
      (modify fun s => { s with table := s.table.retype b type } : Parser Unit) := by
  intro s s' hs hr
  refine .ok r ⟨hs.ahead, hs.finish, hs.last, hT.retype hs.table (hr a b hid) type, hs.report⟩
    (fun _ _ h => h) (fun x y h => ?_) trivial
  exact (hr x y h).mono (s.table.keeps_retype a type) (s'.table.keeps_retype b type)

/-- The outcomes of two attempts. -/
inductive Attempted (q : Location → Location → Prop) (R : α → α' → Prop) :
    Except Diagnostic α → Except Diagnostic α' → Prop
  | ok {a : α} {a' : α'} (h : R a a') : Attempted q R (.ok a) (.ok a')
  | error {d d' : Diagnostic} (h : d.Alike q d') : Attempted q R (.error d) (.error d')

theorem attempt (hp : Alike T q r R p p') :
    Alike T q r (fun r => Attempted q (R r)) (Parser.attempt p) (Parser.attempt p') := by
  intro s s' hs hr
  have hfirst := hp s s' hs hr
  unfold Parser.attempt
  generalize p s = x, p' s' = x' at hfirst ⊢
  cases hfirst with
  | ok r' ht hle hr' ha => exact .ok r' ht hle hr' (.ok ha)
  | error ht hr' hd => exact .ok r ht (fun _ _ h => h) hr' (.error hd)

theorem record {d d' : Diagnostic} (hd : d.Alike q d') :
    Alike T q r (fun _ _ _ => True) (Parser.record d) (Parser.record d') := by
  refine update (fun s s' hs => ?_) (fun _ => rfl) fun _ => rfl
  exact ⟨hs.ahead, hs.finish, hs.last, hs.table,
    List.rel_append hs.report (.cons hd .nil)⟩

theorem pastSemicolon {last last' : Option Location} (hlast : Option.Rel q last last')
    {ahead ahead' : List Token} (h : List.Forall₂ (Token.Alike q) ahead ahead') :
    Option.Rel q (Parser.pastSemicolon last ahead).1 (Parser.pastSemicolon last' ahead').1 ∧
      List.Forall₂ (Token.Alike q) (Parser.pastSemicolon last ahead).2
        (Parser.pastSemicolon last' ahead').2 := by
  induction h generalizing last last' with
  | nil => exact ⟨hlast, .nil⟩
  | @cons t t' rest rest' ht hrest ih =>
    unfold Parser.pastSemicolon
    rw [ht.1]
    split
    · exact ⟨.some ht.2, hrest⟩
    · split
      · exact ⟨hlast, .cons ht hrest⟩
      · exact ih (.some ht.2)

theorem pastBraces {last last' : Option Location} (hlast : Option.Rel q last last')
    {ahead ahead' : List Token} (h : List.Forall₂ (Token.Alike q) ahead ahead') :
    Option.Rel q (Parser.pastBraces last ahead).1 (Parser.pastBraces last' ahead').1 ∧
      List.Forall₂ (Token.Alike q) (Parser.pastBraces last ahead).2
        (Parser.pastBraces last' ahead').2 := by
  induction h generalizing last last' with
  | nil => exact ⟨hlast, .nil⟩
  | @cons t t' rest rest' ht hrest ih =>
    unfold Parser.pastBraces
    rw [ht.1]
    split
    · exact ih (.some ht.2)
    · exact ⟨hlast, .cons ht hrest⟩

theorem synchronize : Alike T q r (fun _ _ _ => True) Parser.synchronize Parser.synchronize := by
  refine update (fun s s' hs => ?_) (fun _ => rfl) fun _ => rfl
  obtain ⟨hlast, hahead⟩ := pastSemicolon hs.last hs.ahead
  exact ⟨hahead, hs.finish, hlast, hs.table, hs.report⟩

theorem skipBraces : Alike T q r (fun _ _ _ => True) Parser.skipBraces Parser.skipBraces := by
  refine update (fun s s' hs => ?_) (fun _ => rfl) fun _ => rfl
  obtain ⟨hlast, hahead⟩ := pastBraces hs.last hs.ahead
  exact ⟨hahead, hs.finish, hlast, hs.table, hs.report⟩

/-- A loop goes on alike if each of its steps does, whatever names were met before. -/
theorem iterate {step : α → Parser (Option α)} {step' : α' → Parser (Option α')}
    (h : ∀ (r' : Int → Int → Prop) a a', (∀ x y, r x y → r' x y) → R r' a a' →
      Alike T q r' (fun r'' => Option.Rel (R r'')) (step a) (step' a'))
    (hmono : ∀ {r' r'' : Int → Int → Prop} {a a'}, (∀ x y, r' x y → r'' x y) → R r' a a' →
      R r'' a a')
    {a : α} {a' : α'} (ha : R r a a') :
    Alike T q r R (Parser.iterate step a) (Parser.iterate step' a') := by
  refine get.bind fun r' s s' hle hahead => ?_
  replace ha := hmono hle ha
  generalize s.ahead = room, s'.ahead = room' at hahead
  induction hahead generalizing r' a a' with
  | nil => exact pure ha
  | cons _ _ ih =>
    refine (h r' a a' hle ha).bind fun r'' b b' hle' hb => ?_
    cases hb with
    | none => exact pure (hmono hle' ha)
    | some hb =>
      exact ih _ (fun x y hxy => hle' x y (hle x y hxy)) hb

theorem commaSeparated
    (hp : ∀ r : Int → Int → Prop, Alike T q r R p p')
    (hmono : ∀ {r' r'' : Int → Int → Prop} {a a'}, (∀ x y, r' x y → r'' x y) → R r' a a' →
      R r'' a a') :
    Alike T q r (fun r => List.Forall₂ (R r)) (Parser.commaSeparated p)
      (Parser.commaSeparated p') := by
  refine (hp r).bind fun r' a a' hle ha => ?_
  refine iterate (fun r'' as as' _ has => ?_) (fun hle h => h.imp fun _ _ => hmono hle)
    (.cons ha .nil)
  refine (accept _).bind fun r₁ more more' hle₁ hmore => ?_
  rw [hmore]
  refine ite ((hp r₁).bind fun r₂ b b' hle₂ hb => pure ?_) (pure .none)
  have has' : List.Forall₂ (R r₂) as as' :=
    has.imp fun _ _ h => hmono hle₂ (hmono hle₁ h)
  exact .some (List.rel_append has' (.cons hb .nil))

theorem closedBy (l : Lexeme) {absent : Location → α} {absent' : Location → α'}
    (habsent : ∀ r' loc loc', q loc loc' → R r' (absent loc) (absent' loc'))
    (hp : ∀ r : Int → Int → Prop, Alike T q r R p p')
    (hmono : ∀ {r' r'' : Int → Int → Prop} {a a'}, (∀ x y, r' x y → r'' x y) → R r' a a' →
      R r'' a a') :
    Alike T q r R (Parser.closedBy l absent p) (Parser.closedBy l absent' p') := by
  refine current.bind fun r' t t' hle ht => ?_
  rw [ht.1]
  refine ite ?_ ?_
  · exact (pure (habsent r' _ _ ht.2)).bind fun _ a a' _ ha =>
      (expect l).bind fun _ _ _ hle' _ => pure (hmono hle' ha)
  · exact (hp r').bind fun _ a a' _ ha =>
      (expect l).bind fun _ _ _ hle' _ => pure (hmono hle' ha)

end

section

variable {T : SymbolTable → SymbolTable → Prop} {q : Location → Location → Prop}
  {expr expr' operand operand' : Parser Expr} {stmt stmt' : Parser Stmt}

/-- The parsers read alike expressions, whatever names were met before. -/
def Exprs (T : SymbolTable → SymbolTable → Prop) (q : Location → Location → Prop)
    (p p' : Parser Expr) : Prop :=
  ∀ r : Int → Int → Prop, Alike T q r (fun r => Expr.Alike r q) p p'

/-- The parsers read alike statements, whatever names were met before. -/
def Stmts (T : SymbolTable → SymbolTable → Prop) (q : Location → Location → Prop)
    (p p' : Parser Stmt) : Prop :=
  ∀ r : Int → Int → Prop, Alike T q r (fun r => Stmt.Alike r q) p p'

theorem primary (hT : SymbolTable.Lasting T) (h : Exprs T q expr expr') :
    Exprs T q (Parser.primary expr) (Parser.primary expr') := by
  refine fun r => current.bind fun r₁ t t' _ ht => ?_
  rw [ht.1]
  split
  · exact advance.bind fun _ _ _ _ _ => (enter hT _ _).bind fun _ _ _ _ hid =>
      pure (.var hid ht.2)
  · exact advance.bind fun _ _ _ _ _ => pure (.literal ht.2)
  · exact advance.bind fun _ _ _ _ _ => pure (.literal ht.2)
  · split
    · exact advance.bind fun _ _ _ _ _ => pure (.literal ht.2)
    · exact fail _ ht.2 _
  · exact advance.bind fun _ _ _ _ _ => (h _).bind fun _ _ _ _ hinner =>
      (expect _).bind fun _ _ _ hle _ => pure (.group (hinner.widen hle) ht.2)
  · exact fail _ ht.2 _
  · exact fail _ ht.2 _

theorem arguments (h : Exprs T q expr expr') (r : Int → Int → Prop) :
    Alike T q r (fun r => Expr.AlikeAll r q) (Parser.arguments expr) (Parser.arguments expr') := by
  rw [arguments_eq, arguments_eq]
  have hlist : Alike T q r (fun r => List.Forall₂ (Expr.Alike r q))
      (Parser.closedBy (.mark .parenClose) (fun _ => []) (Parser.commaSeparated expr))
      (Parser.closedBy (.mark .parenClose) (fun _ => []) (Parser.commaSeparated expr')) :=
    closedBy _ (fun _ _ _ _ => .nil) (fun _ => commaSeparated h fun hle he => he.widen hle)
      fun hle hes => hes.imp fun _ _ he => he.widen hle
  exact hlist.imp fun _ _ _ => Expr.alikeAll_of_forall₂

theorem call (hT : SymbolTable.Lasting T) (h : Exprs T q expr expr') :
    Exprs T q (Parser.call expr) (Parser.call expr') := by
  refine fun r => (primary hT h r).bind fun r₁ e e' _ he => ?_
  refine iterate (fun r₂ callee callee' _ hcallee => ?_) (fun hle he => he.widen hle) he
  refine (accept _).bind fun r₃ opened opened' hle hopened => ?_
  rw [hopened]
  refine ite ((arguments h r₃).bind fun r₄ args args' hle' hargs => pure (.some ?_)) (pure .none)
  have hcallee := (hcallee.widen hle).widen hle'
  exact .call hcallee hargs hcallee.loc

theorem leftAssociative (precedence : Nat) (h : Exprs T q operand operand') :
    Exprs T q (Parser.leftAssociative precedence operand)
      (Parser.leftAssociative precedence operand') := by
  refine fun r => (h r).bind fun r₁ e e' _ he => ?_
  refine iterate (fun r₂ left left' _ hleft => ?_) (fun hle he => he.widen hle) he
  refine current.bind fun r₃ t t' hle ht => ?_
  rw [ht.1]
  split
  · refine ite (advance.bind fun r₄ _ _ hle₁ _ => (h r₄).bind fun r₅ right right' hle₂ hright => ?_)
      (pure .none)
    exact pure (.some (.binary (((hleft.widen hle).widen hle₁).widen hle₂) hright ht.2))
  · exact pure .none

theorem binary (h : Exprs T q operand operand') :
    Exprs T q (Parser.binary operand) (Parser.binary operand') :=
  leftAssociative 1 (leftAssociative 2 (leftAssociative 3 (leftAssociative 4 h)))

theorem assigned {r : Int → Int → Prop} (op : AssignOp) {target target' value value' : Expr}
    {loc loc' : Location} (htarget : Expr.Alike r q target target')
    (hvalue : Expr.Alike r q value value') (hloc : q loc loc') :
    Expr.Alike r q (Parser.assigned op target value loc)
      (Parser.assigned op target' value' loc') := by
  cases op with
  | plain => exact hvalue
  | compound => exact .binary htarget hvalue hloc

theorem assignmentWithin (h : Exprs T q operand operand') {room room' : List Token}
    (hroom : List.Forall₂ (Token.Alike q) room room') :
    Exprs T q (Parser.assignmentWithin operand room) (Parser.assignmentWithin operand' room') := by
  induction hroom with
  | nil => exact binary h
  | cons _ _ ih =>
    refine fun r => (binary h r).bind fun r₁ target target' _ htarget => ?_
    refine current.bind fun r₂ t t' hle ht => ?_
    rw [ht.1]
    split
    · exact pure (htarget.widen hle)
    · refine advance.bind fun r₃ _ _ hle₁ _ => (ih r₃).bind fun r₄ value value' hle₂ hvalue => ?_
      have htarget := ((htarget.widen hle).widen hle₁).widen hle₂
      exact pure (.assign htarget (assigned _ htarget hvalue ht.2) htarget.loc)

theorem expressionOver (h : Exprs T q operand operand') :
    Exprs T q (Parser.expressionOver operand) (Parser.expressionOver operand') :=
  fun _ => get.bind fun r₁ _ _ _ hahead => assignmentWithin h hahead r₁

theorem unary (hT : SymbolTable.Lasting T) :
    ∀ room : Nat, Exprs T q (Parser.unary room) (Parser.unary room)
  | 0 => fun _ => current.bind fun _ _ _ _ ht => fail _ ht.2 _
  | room + 1 => by
    refine fun r => current.bind fun r₁ t t' _ ht => ?_
    rw [ht.1]
    split
    · exact advance.bind fun r₂ _ _ _ _ => (unary hT room r₂).bind fun _ _ _ _ he =>
        pure (.unary he ht.2)
    · exact call hT (expressionOver (unary hT room)) r₁

theorem expression (hT : SymbolTable.Lasting T) (room : Nat) :
    Exprs T q (Parser.expression room) (Parser.expression room) :=
  expressionOver (unary hT room)

theorem declarator (hT : SymbolTable.Lasting T) (type : Datatype) (h : Exprs T q expr expr') :
    Stmts T q (Parser.declarator type expr) (Parser.declarator type expr') := by
  refine fun r => identifier.bind fun r₁ ⟨name, loc⟩ ⟨name', loc'⟩ _ ⟨hname, hloc⟩ => ?_
  obtain rfl : name = name' := hname
  refine (enter hT _ _).bind fun r₂ id id' _ hid => ?_
  refine (accept _).bind fun r₃ more more' hle hmore => ?_
  rw [hmore]
  refine ite ((h r₃).bind fun r₄ e e' hle' he => ?_) ?_
  · exact pure (.var (hle' _ _ (hle _ _ hid)) (.some he) hloc)
  · exact pure (.var (hle _ _ hid) .none hloc)

theorem variableDecls (hT : SymbolTable.Lasting T) (h : Exprs T q expr expr')
    (r : Int → Int → Prop) :
    Alike T q r (fun r => Stmt.AlikeAll r q) (Parser.variableDecls expr)
      (Parser.variableDecls expr') := by
  refine datatype.bind fun r₁ type type' _ htype => ?_
  cases htype
  refine (commaSeparated (declarator hT type h) fun hle hs => hs.widen hle).bind
    fun r₂ vars vars' _ hvars => (expect _).bind fun r₃ _ _ hle _ => ?_
  exact pure (Stmt.alikeAll_of_forall₂ (hvars.imp fun _ _ hs => hs.widen hle))

theorem exprStmt (h : Exprs T q expr expr') :
    Stmts T q (Parser.exprStmt expr) (Parser.exprStmt expr') :=
  fun _ => current.bind fun r₁ _ _ _ ht => (h r₁).bind fun _ _ _ _ he => pure (.expr he ht.2)

theorem entry (hT : SymbolTable.Lasting T) (h : Exprs T q expr expr') (hs : Stmts T q stmt stmt')
    (r : Int → Int → Prop) :
    Alike T q r (fun r => Stmt.AlikeAll r q) (Parser.entry expr stmt)
      (Parser.entry expr' stmt') := by
  refine current.bind fun r₁ t t' _ ht => ?_
  rw [ht.1]
  exact ite (variableDecls hT h r₁) ((hs r₁).bind fun _ _ _ _ hs => pure (.cons hs .nil))

theorem entryStep (hT : SymbolTable.Lasting T) (h : Exprs T q expr expr')
    (hs : Stmts T q stmt stmt') {r : Int → Int → Prop} {body body' : List Stmt}
    (hbody : Stmt.AlikeAll r q body body') :
    Alike T q r (fun r => Option.Rel (Stmt.AlikeAll r q)) (Parser.entryStep expr stmt body)
      (Parser.entryStep expr' stmt' body') := by
  refine current.bind fun r₁ t t' hle ht => ?_
  rw [ht.1]
  refine ite (pure .none) ((entry hT h hs r₁).attempt.bind fun r₂ x x' hle₁ hx => ?_)
  have hbody := (hbody.widen hle).widen hle₁
  cases hx with
  | ok hx => exact pure (.some (hbody.append hx))
  | error hd =>
    exact (record hd).bind fun _ _ _ hle₂ _ => synchronize.bind fun _ _ _ hle₃ _ =>
      pure (.some ((hbody.widen hle₂).widen hle₃))

theorem block (hT : SymbolTable.Lasting T) (h : Exprs T q expr expr') (hs : Stmts T q stmt stmt')
    (r : Int → Int → Prop) :
    Alike T q r (fun r x x' => Stmt.AlikeAll r q x.1 x'.1 ∧ q x.2 x'.2) (Parser.block expr stmt)
      (Parser.block expr' stmt') := by
  refine (expect _).bind fun r₁ loc loc' _ hloc => ?_
  have hbody : Alike T q r₁ (fun r => Stmt.AlikeAll r q)
      (Parser.iterate (Parser.entryStep expr stmt) [])
      (Parser.iterate (Parser.entryStep expr' stmt') []) :=
    iterate (fun _ _ _ _ hbody => entryStep hT h hs hbody) (fun hle hbody => hbody.widen hle) .nil
  exact hbody.bind fun r₂ _ _ _ hbody => (expect _).bind fun _ _ _ hle _ =>
    pure ⟨hbody.widen hle, hloc⟩

theorem condition (h : Exprs T q expr expr') :
    Exprs T q (Parser.condition expr) (Parser.condition expr') :=
  fun _ => (expect _).bind fun r₁ _ _ _ _ => (h r₁).bind fun _ _ _ _ he =>
    (expect _).bind fun _ _ _ hle _ => pure (he.widen hle)

section

variable {loc loc' : Location} (hloc : q loc loc')
include hloc

theorem conditional (h : Exprs T q expr expr') (hs : Stmts T q stmt stmt') :
    Stmts T q (Parser.conditional expr stmt loc) (Parser.conditional expr' stmt' loc') := by
  refine fun r => advance.bind fun r₁ _ _ _ _ => (condition h r₁).bind fun r₂ cond cond' _ hcond =>
    (hs r₂).bind fun r₃ body body' hle hbody =>
      (accept _).bind fun r₄ other other' hle₁ hother => ?_
  have hcond := (hcond.widen hle).widen hle₁
  have hbody := hbody.widen hle₁
  rw [hother]
  refine ite ((hs r₄).bind fun r₅ stmt stmt' hle₂ hstmt => ?_) (pure (.ifThen hcond hbody hloc))
  exact pure (.ifElse (hcond.widen hle₂) (hbody.widen hle₂) hstmt hloc)

theorem whileLoop (h : Exprs T q expr expr') (hs : Stmts T q stmt stmt') :
    Stmts T q (Parser.whileLoop expr stmt loc) (Parser.whileLoop expr' stmt' loc') :=
  fun _ => advance.bind fun r₁ _ _ _ _ => (condition h r₁).bind fun r₂ _ _ _ hcond =>
    (hs r₂).bind fun _ _ _ hle hbody => pure (.loop (hcond.widen hle) hbody hloc)

theorem doLoop (h : Exprs T q expr expr') (hs : Stmts T q stmt stmt') :
    Stmts T q (Parser.doLoop expr stmt loc) (Parser.doLoop expr' stmt' loc') := by
  refine fun r => advance.bind fun r₁ _ _ _ _ => (hs r₁).bind fun r₂ body body' _ hbody =>
    (expect _).bind fun r₃ _ _ hle _ => (condition h r₃).bind fun r₄ cond cond' hle₁ hcond =>
      (expect _).bind fun r₅ _ _ hle₂ _ => ?_
  have hbody := ((hbody.widen hle).widen hle₁).widen hle₂
  exact pure (.block (.cons hbody (.cons (.loop (hcond.widen hle₂) hbody hloc) .nil)) hloc)

end

theorem forInit (hT : SymbolTable.Lasting T) (h : Exprs T q expr expr') (r : Int → Int → Prop) :
    Alike T q r (fun r => Stmt.AlikeAll r q) (Parser.forInit expr) (Parser.forInit expr') := by
  refine (accept _).bind fun r₁ absent absent' _ habsent => ?_
  rw [habsent]
  refine ite (pure .nil) (current.bind fun r₂ t t' _ ht => ?_)
  rw [ht.1]
  exact ite (variableDecls hT h r₂) ((exprStmt h r₂).bind fun _ _ _ _ hs =>
    (expect _).bind fun _ _ _ hle _ => pure (.cons (hs.widen hle) .nil))

theorem forCondition (h : Exprs T q expr expr') :
    Exprs T q (Parser.forCondition expr) (Parser.forCondition expr') := by
  intro r
  rw [forCondition_eq, forCondition_eq]
  exact closedBy _ (fun _ _ _ hloc => .literal hloc) h fun hle he => he.widen hle

theorem forStep (h : Exprs T q expr expr') (r : Int → Int → Prop) :
    Alike T q r (fun r => Option.Rel (Stmt.Alike r q)) (Parser.forStep expr)
      (Parser.forStep expr') := by
  rw [forStep_eq, forStep_eq]
  refine closedBy _ (fun _ _ _ _ => .none)
    (fun r => (exprStmt h r).map fun _ _ _ hs => .some hs) fun hle hs => ?_
  cases hs with
  | none => exact .none
  | some hs => exact .some (hs.widen hle)

theorem withStep {r : Int → Int → Prop} {body body' : Stmt} (hbody : Stmt.Alike r q body body')
    {step step' : Option Stmt} (hstep : Option.Rel (Stmt.Alike r q) step step') :
    Stmt.Alike r q (Parser.withStep body step) (Parser.withStep body' step') := by
  cases hstep with
  | none => exact hbody
  | some hs => exact .block (.cons hbody (.cons hs .nil)) hbody.loc

theorem forLoop (hT : SymbolTable.Lasting T) {loc loc' : Location} (hloc : q loc loc')
    (h : Exprs T q expr expr') (hs : Stmts T q stmt stmt') :
    Stmts T q (Parser.forLoop expr stmt loc) (Parser.forLoop expr' stmt' loc') := by
  refine fun r => advance.bind fun r₁ _ _ _ _ => (expect _).bind fun r₂ _ _ _ _ =>
    (forInit hT h r₂).bind fun r₃ init init' _ hinit =>
      (forCondition h r₃).bind fun r₄ cond cond' hle hcond =>
        (forStep h r₄).bind fun r₅ step step' hle₁ hstep =>
          (hs r₅).bind fun r₆ body body' hle₂ hbody => ?_
  have hinit := ((hinit.widen hle).widen hle₁).widen hle₂
  have hcond := (hcond.widen hle₁).widen hle₂
  have hstep : Option.Rel (Stmt.Alike r₆ q) step step' := by
    cases hstep with
    | none => exact .none
    | some hs => exact .some (hs.widen hle₂)
  exact pure (.block (hinit.append (.cons (.loop hcond (withStep hbody hstep) hloc) .nil)) hloc)

theorem returning {loc loc' : Location} (hloc : q loc loc') (h : Exprs T q expr expr') :
    Stmts T q (Parser.returning expr loc) (Parser.returning expr' loc') := by
  intro r
  rw [returning_eq, returning_eq]
  refine advance.bind fun r₁ _ _ _ _ => ?_
  have hvalue : Alike T q r₁ (fun r => Option.Rel (Expr.Alike r q))
      (Parser.closedBy (.mark .semicolon) (fun _ => none) (some <$> expr))
      (Parser.closedBy (.mark .semicolon) (fun _ => none) (some <$> expr')) :=
    closedBy _ (fun _ _ _ _ => .none) (fun r => (h r).map fun _ _ _ he => .some he)
      fun hle he => Expr.Alike.option_widen hle he
  exact hvalue.bind fun _ _ _ _ hvalue => pure (.returning hvalue hloc)

theorem statement (hT : SymbolTable.Lasting T) :
    ∀ room : Nat, Stmts T q (Parser.statement room) (Parser.statement room)
  | 0 => fun _ => current.bind fun _ _ _ _ ht => fail _ ht.2 _
  | room + 1 => by
    have he := expression (q := q) hT room
    have hs := statement hT room
    refine fun r => current.bind fun r₁ t t' _ ht => ?_
    rw [ht.1]
    split
    · exact (block hT he hs r₁).bind fun _ _ _ _ hblock => pure (.block hblock.1 hblock.2)
    · exact conditional ht.2 he hs r₁
    · exact doLoop ht.2 he hs r₁
    · exact forLoop hT ht.2 he hs r₁
    · exact whileLoop ht.2 he hs r₁
    · exact returning ht.2 he r₁
    · exact (exprStmt he r₁).bind fun _ _ _ _ hstmt => (expect _).bind fun _ _ _ hle _ =>
        pure (hstmt.widen hle)

theorem param (hT : SymbolTable.Lasting T) (r : Int → Int → Prop) :
    Alike T q r (fun r => Param.Alike r q) Parser.param Parser.param := by
  refine current.bind fun r₁ t t' _ ht => datatype.bind fun r₂ type type' _ htype => ?_
  cases htype
  refine identifier.bind fun r₃ ⟨name, _⟩ ⟨name', _⟩ _ ⟨hname, _⟩ => ?_
  obtain rfl : name = name' := hname
  exact (enter hT _ _).bind fun _ _ _ _ hid => pure ⟨hid, rfl, ht.2⟩

theorem params (hT : SymbolTable.Lasting T) (r : Int → Int → Prop) :
    Alike T q r (fun r => List.Forall₂ (Param.Alike r q)) Parser.params Parser.params := by
  rw [params_eq]
  refine (expect _).bind fun r₁ _ _ _ _ => ?_
  exact closedBy _ (fun _ _ _ _ => .nil)
    (fun _ => commaSeparated (param hT) fun hle hp => hp.widen hle)
    fun hle hps => hps.imp fun _ _ hp => hp.widen hle

theorem function (hT : SymbolTable.Lasting T) (room : Nat) :
    Stmts T q (Parser.function room) (Parser.function room) := by
  refine fun r => current.bind fun r₁ t t' _ ht => advance.bind fun r₂ _ _ _ _ => ?_
  refine identifier.bind fun r₃ ⟨name, _⟩ ⟨name', _⟩ _ ⟨hname, _⟩ => ?_
  obtain rfl : name = name' := hname
  refine (enter hT _ _).bind fun r₄ id id' _ hid => (params hT r₄).bind fun r₅ ps ps' hle hps => ?_
  refine (expect _).bind fun r₆ _ _ hle₁ _ => datatype.bind fun r₇ result result' hle₂ hresult => ?_
  cases hresult
  have hid := hle₂ _ _ (hle₁ _ _ (hle _ _ hid))
  refine (retype hT hid result).bind fun r₈ _ _ hle₃ _ => ?_
  refine (block hT (expression hT room) (statement hT room) r₈).bind
    fun r₉ body body' hle₄ hbody => ?_
  have hps := hps.imp fun _ _ hp => (((Param.Alike.widen hle₁ hp).widen hle₂).widen hle₃).widen hle₄
  exact pure (.function (hle₄ _ _ (hle₃ _ _ hid)) hps hbody.1 hbody.2 ht.2)

theorem declaration (hT : SymbolTable.Lasting T) (room : Nat) (r : Int → Int → Prop) :
    Alike T q r (fun r => Stmt.AlikeAll r q) (Parser.declaration room)
      (Parser.declaration room) := by
  refine current.bind fun r₁ t t' _ ht => ?_
  rw [ht.1]
  exact ite ((function hT room r₁).bind fun _ _ _ _ hs => pure (.cons hs .nil))
    (entry hT (expression hT room) (statement hT room) r₁)

theorem declarationStep (hT : SymbolTable.Lasting T) (room : Nat) {r : Int → Int → Prop}
    {body body' : List Stmt} (hbody : Stmt.AlikeAll r q body body') :
    Alike T q r (fun r => Option.Rel (Stmt.AlikeAll r q)) (Parser.declarationStep room body)
      (Parser.declarationStep room body') := by
  refine current.bind fun r₁ t t' hle ht => ?_
  rw [ht.1]
  refine ite (pure .none) ((declaration hT room r₁).attempt.bind fun r₂ x x' hle₁ hx => ?_)
  have hbody := (hbody.widen hle).widen hle₁
  cases hx with
  | ok hx => exact pure (.some (hbody.append hx))
  | error hd =>
    exact (record hd).bind fun _ _ _ hle₂ _ => synchronize.bind fun _ _ _ hle₃ _ =>
      skipBraces.bind fun _ _ _ hle₄ _ =>
        pure (.some (((hbody.widen hle₂).widen hle₃).widen hle₄))

/-- Programs of the same lexemes are read alike, also where they cannot be read. -/
theorem declarations (hT : SymbolTable.Lasting T) (room : Nat) (r : Int → Int → Prop) :
    Alike T q r (fun r => Stmt.AlikeAll r q) (Parser.declarations room)
      (Parser.declarations room) := by
  rw [declarations_eq]
  exact iterate (fun _ _ _ _ hbody => declarationStep hT room hbody)
    (fun hle hbody => hbody.widen hle) .nil

end

end Alike

end Parser

namespace TokenStream

open Ember.Parser

variable {T : SymbolTable → SymbolTable → Prop} {q : Location → Location → Prop} {room : Nat}
  {file file' : String} {stream stream' : TokenStream} {table table' : SymbolTable}

/-- Streams of the same lexemes are parsed alike: the programs by the names in their tables, and
the problems found by the parser place by place. -/
theorem alike_parseWithin (hT : SymbolTable.Lasting T)
    (htokens : List.Forall₂ (Token.Alike q) stream.tokens stream'.tokens)
    (hfinish : q stream.finish stream'.finish) (htable : T table table') :
    let parsed := stream.parseWithin room file table
    let parsed' := stream'.parseWithin room file' table'
    Stmt.AlikeAll (parsed.table.SameName parsed'.table) q parsed.program.body
        parsed'.program.body ∧
      T parsed.table parsed'.table ∧
      ∃ ds ds' : Report, List.Forall₂ (Diagnostic.Alike q) ds ds' ∧
        parsed.report = Report.sorted (stream.report ++ ds) ∧
        parsed'.report = Report.sorted (stream'.report ++ ds') := by
  have hstart : (State.start stream table).Alike T q (State.start stream' table') :=
    ⟨htokens, hfinish, .none, htable, .nil⟩
  have hrun := Alike.declarations (q := q) hT room (fun _ _ => False) _ _ hstart
    (fun _ _ h => h.elim)
  obtain ⟨body, s, hok⟩ := declarations_ok room (State.start stream table)
  obtain ⟨body', s', hok'⟩ := declarations_ok room (State.start stream' table')
  rw [parseWithin_of_ok hok, parseWithin_of_ok hok']
  rw [hok, hok'] at hrun
  cases hrun with
  | ok r' hs _ hnames hbody =>
    exact ⟨hbody.widen hnames, hs.table, s.report, s'.report, hs.report, rfl, rfl⟩

end TokenStream

end Ember
