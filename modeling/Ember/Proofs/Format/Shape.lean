import Ember.Format.Program
import Ember.Proofs.Format.Sketch
import Ember.Proofs.Lexer.Spelling

namespace Ember

/-- A name that a source text can hold. -/
def IsName (name : String) : Prop := (Lexeme.identifier name).Readable

/-- A constant that a literal of the language gives. -/
def Literal.Printable (l : Literal) : Prop :=
  (∃ b, l = .bool b) ∨ ∃ n, n < 18446744073709551616 ∧ l = Grammar.literalOf n

/-- What is asked of the leaves of a tree: of its constants, of the ids that it names, and of its
operators and types. -/
structure Leaves where
  literal : Literal → Prop
  id : Int → Prop
  operator : BinaryOp → Prop
  type : Datatype → Prop

/-- The leaves of a tree that a source text can give. -/
def Leaves.printable (name : Int → String) : Leaves where
  literal := Literal.Printable
  id id := IsName (name id)
  operator op := op.mark?.isSome
  type type := type.keyword?.isSome

namespace Expr

def isAssignment : Expr → Bool
  | .assign _ _ _ => true
  | _ => false

/-- An expression that can stand before the parentheses of a call. -/
def isCallee : Expr → Bool
  | .assign _ _ _ | .binary _ _ _ _ | .unary _ _ _ => false
  | _ => true

/-- An expression that can stand behind an operator with one operand. -/
def isOperand : Expr → Bool
  | .assign _ _ _ | .binary _ _ _ _ => false
  | _ => true

theorem isOperand_of_isCallee {e : Expr} (h : e.isCallee) : e.isOperand := by
  cases e <;> first | rfl | cases h

theorem isAssignment_of_isOperand {e : Expr} (h : e.isOperand) : e.isAssignment = false := by
  cases e <;> first | rfl | cases h

end Expr

variable {leaves leaves' : Leaves} {name : Int → String}

mutual

/-- The leaves are as asked, and no operand needs parentheses that it does not have. -/
def Expr.Formed (leaves : Leaves) : Expr → Prop
  | .literal value _ => leaves.literal value
  | .var id _ => leaves.id id
  | .group inner _ => inner.Formed leaves
  | .assign target value _ =>
    target.isAssignment = false ∧ target.Formed leaves ∧ value.Formed leaves
  | .unary _ operand _ => operand.isOperand ∧ operand.Formed leaves
  | .binary op left right _ =>
    leaves.operator op ∧ left.isAssignment = false ∧ left.Formed leaves ∧ right.Formed leaves
  | .call callee args _ => callee.isCallee ∧ callee.Formed leaves ∧ Expr.FormedAll leaves args

def Expr.FormedAll (leaves : Leaves) : List Expr → Prop
  | [] => True
  | e :: rest => e.Formed leaves ∧ Expr.FormedAll leaves rest

end

/-- An expression that may be absent. -/
def Expr.FormedOption (leaves : Leaves) (e : Option Expr) : Prop := ∀ e' ∈ e, e'.Formed leaves

theorem Expr.formedAll_iff {es : List Expr} :
    Expr.FormedAll leaves es ↔ ∀ e ∈ es, e.Formed leaves := by
  induction es with
  | nil => simp [Expr.FormedAll]
  | cons e rest ih => simp [Expr.FormedAll, ih]

def Param.Formed (leaves : Leaves) (p : Param) : Prop := leaves.type p.type ∧ leaves.id p.id

namespace Stmt

def isDeclaration : Stmt → Bool
  | .function _ _ _ _ _ _ | .var _ _ _ _ => true
  | _ => false

/-- The statement ends in a conditional without another branch. -/
def isOpen : Stmt → Bool
  | .conditional _ _ none _ => true
  | .conditional _ _ (some other) _ => other.isOpen
  | .loop _ body _ => body.isOpen
  | _ => false

theorem isFunction_of_isDeclaration {s : Stmt} (h : s.isDeclaration = false) :
    s.isFunction = false := by
  cases s <;> first | rfl | cases h

end Stmt

mutual

/-- A body that is one statement is no declaration, no function is declared in a block, and no
conditional before an `else` is left open. -/
def Stmt.Formed (leaves : Leaves) : Stmt → Prop
  | .function id params result body _ _ =>
    leaves.id id ∧ (∀ p ∈ params, p.Formed leaves) ∧ leaves.type result ∧
      Stmt.FormedAll leaves body
  | .var id type init _ => leaves.id id ∧ leaves.type type ∧ Expr.FormedOption leaves init
  | .block body _ => Stmt.FormedAll leaves body
  | .conditional cond body none _ =>
    cond.Formed leaves ∧ body.isDeclaration = false ∧ body.Formed leaves
  | .conditional cond body (some other) _ =>
    cond.Formed leaves ∧ (body.isDeclaration = false ∧ body.Formed leaves) ∧
      body.isOpen = false ∧ other.isDeclaration = false ∧ other.Formed leaves
  | .loop cond body _ => cond.Formed leaves ∧ body.isDeclaration = false ∧ body.Formed leaves
  | .returning value _ => Expr.FormedOption leaves value
  | .expr e _ => e.Formed leaves

/-- The statements of a block. -/
def Stmt.FormedAll (leaves : Leaves) : List Stmt → Prop
  | [] => True
  | s :: rest => s.isFunction = false ∧ s.Formed leaves ∧ Stmt.FormedAll leaves rest

end

theorem Stmt.formedAll_iff {ss : List Stmt} :
    Stmt.FormedAll leaves ss ↔ ∀ s ∈ ss, s.isFunction = false ∧ s.Formed leaves := by
  induction ss with
  | nil => simp [Stmt.FormedAll]
  | cons s rest ih => simp [Stmt.FormedAll, ih, and_assoc]

theorem Stmt.FormedAll.of_mem {ss : List Stmt} (h : Stmt.FormedAll leaves ss) :
    ∀ s ∈ ss, s.Formed leaves :=
  fun s hs => (Stmt.formedAll_iff.1 h s hs).2

/-- What is asked of leaves is also met where less is asked. -/
structure Leaves.Le (leaves leaves' : Leaves) : Prop where
  literal : ∀ l, leaves.literal l → leaves'.literal l
  id : ∀ id, leaves.id id → leaves'.id id
  operator : ∀ op, leaves.operator op → leaves'.operator op
  type : ∀ type, leaves.type type → leaves'.type type

mutual

theorem Expr.Formed.mono (hle : leaves.Le leaves') :
    (e : Expr) → e.Formed leaves → e.Formed leaves'
  | .literal value _, h => hle.literal value h
  | .var id _, h => hle.id id h
  | .group inner _, h => Expr.Formed.mono hle inner h
  | .assign target value _, h =>
    ⟨h.1, Expr.Formed.mono hle target h.2.1, Expr.Formed.mono hle value h.2.2⟩
  | .unary _ operand _, h => ⟨h.1, Expr.Formed.mono hle operand h.2⟩
  | .binary op left right _, h =>
    ⟨hle.operator op h.1, h.2.1, Expr.Formed.mono hle left h.2.2.1,
      Expr.Formed.mono hle right h.2.2.2⟩
  | .call callee args _, h =>
    ⟨h.1, Expr.Formed.mono hle callee h.2.1, Expr.FormedAll.mono hle args h.2.2⟩

theorem Expr.FormedAll.mono (hle : leaves.Le leaves') :
    (es : List Expr) → Expr.FormedAll leaves es → Expr.FormedAll leaves' es
  | [], _ => trivial
  | e :: rest, h => ⟨Expr.Formed.mono hle e h.1, Expr.FormedAll.mono hle rest h.2⟩

end

theorem Expr.FormedOption.mono {e : Option Expr} (hle : leaves.Le leaves')
    (h : Expr.FormedOption leaves e) : Expr.FormedOption leaves' e :=
  fun e' he' => Expr.Formed.mono hle e' (h e' he')

mutual

theorem Stmt.Formed.mono (hle : leaves.Le leaves') :
    (s : Stmt) → s.Formed leaves → s.Formed leaves'
  | .function id _ result body _ _, h =>
    ⟨hle.id id h.1, fun p hp => (h.2.1 p hp).imp (hle.type _) (hle.id _), hle.type result h.2.2.1,
      Stmt.FormedAll.mono hle body h.2.2.2⟩
  | .var id type _ _, h => ⟨hle.id id h.1, hle.type type h.2.1, h.2.2.mono hle⟩
  | .block body _, h => Stmt.FormedAll.mono hle body h
  | .conditional cond body none _, h =>
    ⟨Expr.Formed.mono hle cond h.1, h.2.1, Stmt.Formed.mono hle body h.2.2⟩
  | .conditional cond body (some other) _, h =>
    ⟨Expr.Formed.mono hle cond h.1, ⟨h.2.1.1, Stmt.Formed.mono hle body h.2.1.2⟩, h.2.2.1,
      h.2.2.2.1, Stmt.Formed.mono hle other h.2.2.2.2⟩
  | .loop cond body _, h =>
    ⟨Expr.Formed.mono hle cond h.1, h.2.1, Stmt.Formed.mono hle body h.2.2⟩
  | .returning _ _, h => Expr.FormedOption.mono hle h
  | .expr e _, h => Expr.Formed.mono hle e h

theorem Stmt.FormedAll.mono (hle : leaves.Le leaves') :
    (ss : List Stmt) → Stmt.FormedAll leaves ss → Stmt.FormedAll leaves' ss
  | [], _ => trivial
  | s :: rest, h => ⟨h.1, Stmt.Formed.mono hle s h.2.1, Stmt.FormedAll.mono hle rest h.2.2⟩

end

/-- An expression that a source text can give. -/
def Expr.Printable (name : Int → String) (e : Expr) : Prop := e.Formed (.printable name)

def Expr.PrintableAll (name : Int → String) (es : List Expr) : Prop :=
  Expr.FormedAll (.printable name) es

/-- An expression that may be absent. -/
def Expr.PrintableOption (name : Int → String) (e : Option Expr) : Prop :=
  Expr.FormedOption (.printable name) e

def Param.Printable (name : Int → String) (p : Param) : Prop := p.Formed (.printable name)

/-- A statement that a source text can give. -/
def Stmt.Printable (name : Int → String) (s : Stmt) : Prop := s.Formed (.printable name)

def Stmt.PrintableAll (name : Int → String) (ss : List Stmt) : Prop :=
  Stmt.FormedAll (.printable name) ss

theorem Stmt.PrintableAll.of_mem {ss : List Stmt} (h : Stmt.PrintableAll name ss) :
    ∀ s ∈ ss, s.Printable name :=
  Stmt.FormedAll.of_mem h

namespace Grammar

/-- Tokens of a text in which no integer is out of range. -/
def Written (ts : List Token) : Prop := ∀ t ∈ ts, t.lexeme.Readable ∧ t.InRange

@[simp] theorem written_cons {t : Token} {ts : List Token} :
    Written (t :: ts) ↔ (t.lexeme.Readable ∧ t.InRange) ∧ Written ts := List.forall_mem_cons

@[simp] theorem written_append {ts ts' : List Token} :
    Written (ts ++ ts') ↔ Written ts ∧ Written ts' := List.forall_mem_append

def Level.Printable (name : Int → String) : (l : Level) → l.Tree → Prop
  | .arguments, es => Expr.PrintableAll name es
  | .expression, e => Expr.Printable name e
  | .binary _, e => Expr.isAssignment e = false ∧ Expr.Printable name e
  | .unary, e => Expr.isOperand e ∧ Expr.Printable name e
  | .call, e | .primary, e => Expr.isCallee e ∧ Expr.Printable name e

theorem isSome_mark?_of_mem_operators {p : Nat} {mark : Mark} {op : BinaryOp}
    (h : (mark, op) ∈ operators p) : op.mark?.isSome := by
  obtain ⟨hop, _⟩ := mem_operators.1 h
  cases mark <;> cases hop <;> rfl

theorem isSome_mark?_of_mem_assignments {mark : Mark} {op : BinaryOp}
    (h : (mark, .compound op) ∈ assignments) : op.mark?.isSome := by
  have hop := mem_assignments.1 h
  cases mark <;> cases hop <;> rfl

theorem Phrase.printable_build {l : Level} (e : Phrase l) (t : SymbolTable) {t' : SymbolTable}
    (hkeeps : (e.build t).2.Keeps t') (hwritten : Written e.tokens) :
    l.Printable t'.nameOf (e.build t).1 := by
  induction e generalizing t with
  | named name loc =>
    refine ⟨rfl, ?_⟩
    obtain ⟨⟨hname, _⟩, _⟩ := written_cons.1 hwritten
    exact (congrArg IsName hkeeps.nameOf_add).mpr hname
  | truth b loc => exact ⟨rfl, .inl ⟨b, rfl⟩⟩
  | integer digits loc =>
    obtain ⟨⟨_, hrange⟩, _⟩ := written_cons.1 hwritten
    exact ⟨rfl, .inr ⟨_, hrange digits rfl, rfl⟩⟩
  | group opening inner closing ih =>
    simp only [tokens, written_cons, written_append] at hwritten
    exact ⟨rfl, ih t hkeeps hwritten.2.1⟩
  | plain inner ih => exact ih t hkeeps hwritten
  | callEmpty callee opening closing ih =>
    simp only [tokens, written_append] at hwritten
    have hcallee := ih t hkeeps hwritten.1
    exact ⟨rfl, hcallee.1, hcallee.2, trivial⟩
  | callWith callee opening args closing ih ihArgs =>
    simp only [tokens, written_cons, written_append] at hwritten
    obtain ⟨hwritten, _, hwrittenArgs, _⟩ := hwritten
    have hcallee := ih t ((args.keeps_build _).trans hkeeps) hwritten
    have hargs := ihArgs _ hkeeps hwrittenArgs
    exact ⟨rfl, hcallee.1, hcallee.2, hargs⟩
  | operand inner ih => exact (ih t hkeeps hwritten).imp_left Expr.isOperand_of_isCallee
  | operator mark op loc inner listed ih =>
    have hoperand := ih t hkeeps (written_cons.1 hwritten).2
    exact ⟨rfl, hoperand.1, hoperand.2⟩
  | lone inner ih => exact (ih t hkeeps hwritten).imp_left Expr.isAssignment_of_isOperand
  | tighter inner ih => exact ih t hkeeps hwritten
  | chain left mark op loc right listed ih ihRight =>
    simp only [tokens, written_cons, written_append] at hwritten
    obtain ⟨hwritten, _, hwrittenRight⟩ := hwritten
    have hleft := ih t ((right.keeps_build _).trans hkeeps) hwritten
    have hright := ihRight _ hkeeps hwrittenRight
    exact ⟨rfl, isSome_mark?_of_mem_operators listed, hleft.1, hleft.2, hright.2⟩
  | simple inner ih => exact (ih t hkeeps hwritten).2
  | assign target mark op loc value listed ih ihValue =>
    simp only [tokens, written_cons, written_append] at hwritten
    obtain ⟨hwritten, _, hwrittenValue⟩ := hwritten
    have htarget := ih t ((value.keeps_build _).trans hkeeps) hwritten
    have hvalue := ihValue _ hkeeps hwrittenValue
    refine ⟨htarget.1, htarget.2, ?_⟩
    -- A compound assignment combines its target, which is no assignment, with its value.
    cases op with
    | plain => exact hvalue
    | compound op => exact ⟨isSome_mark?_of_mem_assignments listed, htarget.1, htarget.2, hvalue⟩
  | argument inner ih => exact ⟨ih t hkeeps hwritten, trivial⟩
  | another before comma last ih ihLast =>
    simp only [tokens, written_cons, written_append] at hwritten
    obtain ⟨hwritten, _, hwrittenLast⟩ := hwritten
    have hbefore := ih t ((last.keeps_build _).trans hkeeps) hwritten
    have hlast := ihLast _ hkeeps hwrittenLast
    exact Expr.formedAll_iff.2 (List.forall_mem_append.2
      ⟨Expr.formedAll_iff.1 hbefore, List.forall_mem_singleton.2 hlast⟩)

theorem Phrase.printable_optionBuild (e : Option (Phrase .expression)) (t : SymbolTable)
    {t' : SymbolTable} (hkeeps : (Phrase.optionBuild e t).2.Keeps t')
    (hwritten : Written (Phrase.optionTokens e)) :
    Expr.PrintableOption t'.nameOf (Phrase.optionBuild e t).1 := by
  cases e with
  | none => intro e' he'; cases he'
  | some e =>
    intro e' he'
    cases he'
    exact e.printable_build t hkeeps hwritten

theorem TypeName.keyword?_type (n : TypeName) : n.type.keyword? = some n.keyword := by
  obtain ⟨keyword, type, loc, listed⟩ := n
  have htype := mem_typeNames.1 listed
  cases keyword <;> cases htype <;> rfl

theorem TypeName.isSome_keyword? (n : TypeName) : n.type.keyword?.isSome := by
  rw [n.keyword?_type]
  rfl

theorem Declarator.printable_build {type : Datatype} (htype : type.keyword?.isSome)
    (d : Declarator) (t : SymbolTable) {t' : SymbolTable}
    (hkeeps : (d.build type t).2.Keeps t') (hwritten : Written d.tokens) :
    (d.build type t).1.Printable t'.nameOf := by
  have hname := ((Phrase.keeps_optionBuild _ _).trans hkeeps).nameOf_add
  obtain ⟨⟨hreadable, _⟩, hrest⟩ := written_cons.1 hwritten
  have hinit : Written (Phrase.optionTokens (d.init.map (·.2))) := by
    cases hd : d.init with
    | none => exact List.forall_mem_nil _
    | some init =>
      simp only [hd, written_cons] at hrest
      exact hrest.2
  exact ⟨(congrArg IsName hname).mpr hreadable, htype,
    Phrase.printable_optionBuild _ _ hkeeps hinit⟩

theorem Declarators.printable_build {type : Datatype} (htype : type.keyword?.isSome)
    (ds : Declarators) (t : SymbolTable) {t' : SymbolTable}
    (hkeeps : (ds.build type t).2.Keeps t') (hwritten : Written ds.tokens) :
    Stmt.PrintableAll t'.nameOf (ds.build type t).1 := by
  induction ds with
  | one d => exact ⟨rfl, d.printable_build htype t hkeeps hwritten, trivial⟩
  | another before comma d ih =>
    simp only [tokens, written_cons, written_append] at hwritten
    obtain ⟨hwritten, _, hwrittenLast⟩ := hwritten
    have hbefore := ih ((d.keeps_build type _).trans hkeeps) hwritten
    have hlast := d.printable_build htype _ hkeeps hwrittenLast
    exact Stmt.formedAll_iff.2 (List.forall_mem_append.2
      ⟨Stmt.formedAll_iff.1 hbefore, List.forall_mem_singleton.2 ⟨rfl, hlast⟩⟩)

theorem ForInit.printable_build (i : ForInit) (t : SymbolTable) {t' : SymbolTable}
    (hkeeps : (i.build t).2.Keeps t') (hwritten : Written i.tokens) :
    Stmt.PrintableAll t'.nameOf (i.build t).1 := by
  cases i with
  | absent => trivial
  | vars v =>
    exact v.declarators.printable_build v.typeName.isSome_keyword? t hkeeps
      (written_cons.1 hwritten).2
  | expression e => exact ⟨rfl, e.printable_build t hkeeps hwritten, trivial⟩

def Role.Printable (name : Int → String) : (r : Role) → r.Tree → Prop
  | .statement, s => Stmt.isDeclaration s = false ∧ Stmt.Printable name s
  | .entry, ss | .entries, ss => Stmt.PrintableAll name ss

/-- The tree of a derivation is not more open than the derivation: loops that become blocks are
closed by these. -/
theorem Clause.isOpen_build {r : Role} (c : Clause r) :
    match r, c with
    | .statement, c => c.isOpen = false → ∀ t, Stmt.isOpen (c.build t).1 = false
    | .entry, _ | .entries, _ => True := by
  induction c with
  | block | doWhile | returning | expr => exact fun _ _ => rfl
  | ifThen => exact fun h => by cases h
  | ifElse loc opening cond closing body elseLoc other ih ihOther => exact fun h t => ihOther h _
  | forLoop => exact fun _ _ => rfl
  | whileLoop loc opening cond closing body ih => exact fun h t => ih h _
  | vars | single | nothing | another => trivial

theorem Clause.printable_stepped {body : Stmt} {step : Option (Phrase .expression)}
    {t t' : SymbolTable} (hkeeps : (Phrase.optionStatement step t).2.Keeps t')
    (hwritten : Written (Phrase.optionTokens step))
    (hbody : body.isDeclaration = false ∧ body.Printable t'.nameOf) :
    (stepped body (Phrase.optionStatement step t).1).isDeclaration = false ∧
      (stepped body (Phrase.optionStatement step t).1).Printable t'.nameOf := by
  cases step with
  | none => exact hbody
  | some e =>
    have hstep := e.printable_build t hkeeps hwritten
    exact ⟨rfl, Stmt.isFunction_of_isDeclaration hbody.1, hbody.2, rfl, hstep, trivial⟩

theorem Clause.printable_build {r : Role} (c : Clause r) (t : SymbolTable) {t' : SymbolTable}
    (hkeeps : (c.build t).2.Keeps t') (hwritten : Written c.tokens) (helse : c.NearestElse) :
    r.Printable t'.nameOf (c.build t).1 := by
  induction c generalizing t with
  | block opening body closing ih =>
    simp only [tokens, written_cons, written_append] at hwritten
    exact ⟨rfl, ih t hkeeps hwritten.2.1 helse⟩
  | ifThen loc opening cond closing body ih =>
    simp only [tokens, written_cons, written_append] at hwritten
    obtain ⟨_, _, hwrittenCond, _, hwritten⟩ := hwritten
    have hcond := cond.printable_build t ((body.keeps_build _).trans hkeeps) hwrittenCond
    have hbody := ih _ hkeeps hwritten helse
    exact ⟨rfl, hcond, hbody⟩
  | ifElse loc opening cond closing body elseLoc other ih ihOther =>
    simp only [tokens, written_cons, written_append] at hwritten
    obtain ⟨_, _, hwrittenCond, _, hwritten, _, hwrittenOther⟩ := hwritten
    obtain ⟨hclosed, helse, helseOther⟩ := helse
    have hkeepsBody := (other.keeps_build _).trans hkeeps
    have hcond := cond.printable_build t ((body.keeps_build _).trans hkeepsBody) hwrittenCond
    have hbody := ih _ hkeepsBody hwritten helse
    have hother := ihOther _ hkeeps hwrittenOther helseOther
    exact ⟨rfl, hcond, hbody, body.isOpen_build hclosed _, hother⟩
  | doWhile loc body whileLoc opening cond closing semicolon ih =>
    simp only [tokens, written_cons, written_append] at hwritten
    obtain ⟨_, hwritten, _, _, hwrittenCond, _⟩ := hwritten
    have hbody := ih t ((cond.keeps_build _).trans hkeeps) hwritten helse
    have hcond := cond.printable_build _ hkeeps hwrittenCond
    exact ⟨rfl, Stmt.isFunction_of_isDeclaration hbody.1, hbody.2, rfl, ⟨hcond, hbody⟩, trivial⟩
  | forLoop loc opening init afterInit cond afterCond step closing body ih =>
    simp only [tokens, written_cons, written_append] at hwritten
    obtain ⟨_, _, hwrittenInit, _, hwrittenCond, _, hwrittenStep, _, hwritten⟩ := hwritten
    have hkeepsStep := (body.keeps_build _).trans hkeeps
    have hkeepsCond := (keeps_optionStatement step _).trans hkeepsStep
    have hkeepsInit := (Phrase.keeps_optionBuild cond _).trans hkeepsCond
    have hinit := init.printable_build t hkeepsInit hwrittenInit
    have hcond := Phrase.printable_optionBuild cond _ hkeepsCond hwrittenCond
    have hbody := ih _ hkeeps hwritten helse
    have hstep := printable_stepped hkeepsStep hwrittenStep hbody
    refine ⟨rfl, Stmt.formedAll_iff.2 (List.forall_mem_append.2
      ⟨Stmt.formedAll_iff.1 hinit, List.forall_mem_singleton.2 ⟨rfl, ?_, hstep⟩⟩)⟩
    cases cond with
    | none => exact .inl ⟨true, rfl⟩
    | some e => exact hcond _ rfl
  | whileLoop loc opening cond closing body ih =>
    simp only [tokens, written_cons, written_append] at hwritten
    obtain ⟨_, _, hwrittenCond, _, hwritten⟩ := hwritten
    have hcond := cond.printable_build t ((body.keeps_build _).trans hkeeps) hwrittenCond
    have hbody := ih _ hkeeps hwritten helse
    exact ⟨rfl, hcond, hbody⟩
  | returning loc value semicolon =>
    simp only [tokens, written_cons, written_append] at hwritten
    exact ⟨rfl, Phrase.printable_optionBuild value t hkeeps hwritten.2.1⟩
  | expr e semicolon =>
    simp only [tokens, written_append] at hwritten
    exact ⟨rfl, e.printable_build t hkeeps hwritten.1⟩
  | vars v semicolon =>
    simp only [tokens, Variables.tokens, written_cons, written_append] at hwritten
    exact v.declarators.printable_build v.typeName.isSome_keyword? t hkeeps hwritten.1.2
  | single s ih =>
    have hs := ih t hkeeps hwritten helse
    exact ⟨Stmt.isFunction_of_isDeclaration hs.1, hs.2, trivial⟩
  | nothing => trivial
  | another before last ih ihLast =>
    obtain ⟨hwritten, hwrittenLast⟩ := written_append.1 hwritten
    have hbefore := ih t ((last.keeps_build _).trans hkeeps) hwritten helse.1
    have hlast := ihLast _ hkeeps hwrittenLast helse.2
    exact Stmt.formedAll_iff.2 (List.forall_mem_append.2
      ⟨Stmt.formedAll_iff.1 hbefore, Stmt.formedAll_iff.1 hlast⟩)

theorem Parameters.printable_build (ps : Parameters) (t : SymbolTable) {t' : SymbolTable}
    (hkeeps : (ps.build t).2.Keeps t') (hwritten : Written ps.tokens) :
    ∀ p ∈ (ps.build t).1, p.Printable t'.nameOf := by
  have hone : ∀ (p : Parameter) (t : SymbolTable), (p.build t).2.Keeps t' → Written p.tokens →
      (p.build t).1.Printable t'.nameOf := by
    intro p t hkeeps hwritten
    simp only [Parameter.tokens, written_cons] at hwritten
    obtain ⟨_, ⟨hreadable, _⟩, _⟩ := hwritten
    exact ⟨p.typeName.isSome_keyword?, (congrArg IsName hkeeps.nameOf_add).mpr hreadable⟩
  induction ps with
  | one p => exact List.forall_mem_singleton.2 (hone p t hkeeps hwritten)
  | another before comma p ih =>
    simp only [tokens, written_cons, written_append] at hwritten
    obtain ⟨hwritten, _, hwrittenLast⟩ := hwritten
    have hbefore := ih ((SymbolTable.keeps_add _ _ _).trans hkeeps) hwritten
    have hlast := hone p _ hkeeps hwrittenLast
    exact List.forall_mem_append.2 ⟨hbefore, List.forall_mem_singleton.2 hlast⟩

theorem Function.printable_build (f : Function) (t : SymbolTable) {t' : SymbolTable}
    (hkeeps : (f.build t).2.Keeps t') (hwritten : Written f.tokens)
    (helse : f.body.NearestElse) : (f.build t).1.Printable t'.nameOf := by
  have hkeepsParams := (f.keeps_params t).trans hkeeps
  have hname := ((Parameters.keeps_optionBuild _ _).trans hkeepsParams).nameOf_add
  simp only [tokens, written_cons, written_append] at hwritten
  obtain ⟨_, ⟨hreadable, _⟩, _, hparams, _, _, _, _, hwritten, _⟩ := hwritten
  have hbody := f.body.printable_build _ hkeeps hwritten helse
  refine ⟨(congrArg IsName hname).mpr hreadable, ?_, f.result.isSome_keyword?, hbody⟩
  cases hps : f.params with
  | none => simp [Parameters.optionBuild]
  | some ps =>
    rw [hps] at hparams
    simp only [hps] at hkeepsParams
    exact ps.printable_build _ hkeepsParams hparams

theorem Module.printable_build (m : Module) (t : SymbolTable) {t' : SymbolTable}
    (hkeeps : (m.build t).2.Keeps t') (hwritten : Written m.tokens) (helse : m.NearestElse) :
    ∀ s ∈ (m.build t).1, s.Printable t'.nameOf := by
  induction m generalizing t' with
  | nothing => simp [build]
  | another before last ih =>
    obtain ⟨hwritten, hwrittenLast⟩ := written_append.1 hwritten
    have hbefore := ih ((last.keeps_build _).trans hkeeps) hwritten helse.1
    refine List.forall_mem_append.2 ⟨hbefore, ?_⟩
    cases last with
    | function f =>
      exact List.forall_mem_singleton.2 (f.printable_build _ hkeeps hwrittenLast helse.2)
    | entry e => exact (e.printable_build _ hkeeps hwrittenLast helse.2).of_mem

end Grammar

end Ember
