import Ember.Parser.Statement
import Ember.Proofs.Grammar.Expression

namespace Ember.Grammar

/-- The place where a derivation starts. -/
def Phrase.start {l : Level} (e : Phrase l) : Location := (e.tokens.head?.map (·.loc)).getD .none

/-- The tokens of an expression that may be absent. -/
def Phrase.optionTokens (e : Option (Phrase .expression)) : List Token :=
  (e.map Phrase.tokens).getD []

/-- How deep an expression that may be absent nests. -/
def Phrase.optionDepth (e : Option (Phrase .expression)) : Nat := (e.map Phrase.depth).getD 0

/-- The tree of an expression that may be absent. -/
def Phrase.optionBuild (e : Option (Phrase .expression)) (t : SymbolTable) :
    Option Expr × SymbolTable :=
  match e with
  | none => (none, t)
  | some e => (some (e.build t).1, (e.build t).2)

/-- An expression as a statement. -/
def Phrase.statement (e : Phrase .expression) (t : SymbolTable) : Stmt × SymbolTable :=
  (.expr (e.build t).1 e.start, (e.build t).2)

/-- An expression that may be absent, as a statement. -/
def Phrase.optionStatement (e : Option (Phrase .expression)) (t : SymbolTable) :
    Option Stmt × SymbolTable :=
  match e with
  | none => (none, t)
  | some e => (some (e.statement t).1, (e.statement t).2)

/-- The types, with the keywords that name them. -/
def typeNames : List (Keyword × Datatype) :=
  [(.voidKw, .void), (.boolKw, .boolean), (.int8Kw, .int8), (.int16Kw, .int16), (.int32Kw, .int32),
    (.int64Kw, .int64), (.uint8Kw, .uint8), (.uint16Kw, .uint16), (.uint32Kw, .uint32),
    (.uint64Kw, .uint64)]

theorem mem_typeNames {k : Keyword} {type : Datatype} :
    (k, type) ∈ typeNames ↔ k.datatype? = some type := by
  constructor
  · intro h
    have hall : ∀ x ∈ typeNames, x.1.datatype? = some x.2 := by decide
    exact hall _ h
  · intro h
    cases k <;> cases h <;> decide

/-- The keyword of a type. -/
structure TypeName where
  keyword : Keyword
  type : Datatype
  loc : Location
  listed : (keyword, type) ∈ typeNames

theorem TypeName.datatype?_keyword (n : TypeName) : n.keyword.datatype? = some n.type :=
  mem_typeNames.1 n.listed

def TypeName.token (n : TypeName) : Token := ⟨.keyword n.keyword, n.loc⟩

/-- A name that is declared, with an optional initial value. -/
structure Declarator where
  name : String
  loc : Location
  init : Option (Location × Phrase .expression)

namespace Declarator

def tokens (d : Declarator) : List Token :=
  ⟨.identifier d.name, d.loc⟩ ::
    match d.init with
    | none => []
    | some (equal, e) => ⟨.mark .assign, equal⟩ :: e.tokens

def depth (d : Declarator) : Nat := Phrase.optionDepth (d.init.map (·.2))

/-- The name is entered before its initial value is read. -/
def build (type : Datatype) (d : Declarator) (t : SymbolTable) : Stmt × SymbolTable :=
  let id := t.add d.name type
  let init := Phrase.optionBuild (d.init.map (·.2)) id.2
  (.var id.1 type init.1 d.loc, init.2)

end Declarator

/-- One declared name or more, with commas between them. -/
inductive Declarators where
  | one (d : Declarator)
  | another (before : Declarators) (comma : Location) (d : Declarator)

namespace Declarators

def tokens : Declarators → List Token
  | one d => d.tokens
  | another before comma d => before.tokens ++ ⟨.mark .comma, comma⟩ :: d.tokens

def depth : Declarators → Nat
  | one d => d.depth
  | another before _ d => max before.depth d.depth

def build (type : Datatype) : Declarators → SymbolTable → List Stmt × SymbolTable
  | one d, t => ([(d.build type t).1], (d.build type t).2)
  | another before _ d, t =>
    let vars := before.build type t
    (vars.1 ++ [(d.build type vars.2).1], (d.build type vars.2).2)

end Declarators

/-- A declaration of variables, without its semicolon. -/
structure Variables where
  typeName : TypeName
  declarators : Declarators

namespace Variables

def tokens (v : Variables) : List Token := v.typeName.token :: v.declarators.tokens

def depth (v : Variables) : Nat := v.declarators.depth

def build (v : Variables) (t : SymbolTable) : List Stmt × SymbolTable :=
  v.declarators.build v.typeName.type t

end Variables

/-- The first clause of a `for`. -/
inductive ForInit where
  | absent
  | vars (v : Variables)
  | expression (e : Phrase .expression)

namespace ForInit

def tokens : ForInit → List Token
  | absent => []
  | vars v => v.tokens
  | expression e => e.tokens

def depth : ForInit → Nat
  | absent => 0
  | vars v => v.depth
  | expression e => e.depth

def build : ForInit → SymbolTable → List Stmt × SymbolTable
  | absent, t => ([], t)
  | vars v, t => v.build t
  | expression e, t => ([(e.statement t).1], (e.statement t).2)

end ForInit

/-- The nonterminals of statements. An `entry` is what stands in a block, and `entries` are
any number of them. -/
inductive Role where
  | statement
  | entry
  | entries

abbrev Role.Tree : Role → Type
  | .statement => Stmt
  | .entry | .entries => List Stmt

/-- Derivations of statements: each constructor is a production. -/
inductive Clause : Role → Type where
  | block (opening : Location) (body : Clause .entries) (closing : Location) : Clause .statement
  | ifThen (loc opening : Location) (cond : Phrase .expression) (closing : Location)
      (body : Clause .statement) : Clause .statement
  | ifElse (loc opening : Location) (cond : Phrase .expression) (closing : Location)
      (body : Clause .statement) (elseLoc : Location) (other : Clause .statement) :
      Clause .statement
  | doWhile (loc : Location) (body : Clause .statement) (whileLoc opening : Location)
      (cond : Phrase .expression) (closing semicolon : Location) : Clause .statement
  | forLoop (loc opening : Location) (init : ForInit) (afterInit : Location)
      (cond : Option (Phrase .expression)) (afterCond : Location)
      (step : Option (Phrase .expression)) (closing : Location) (body : Clause .statement) :
      Clause .statement
  | whileLoop (loc opening : Location) (cond : Phrase .expression) (closing : Location)
      (body : Clause .statement) : Clause .statement
  | returning (loc : Location) (value : Option (Phrase .expression)) (semicolon : Location) :
      Clause .statement
  | expr (e : Phrase .expression) (semicolon : Location) : Clause .statement
  | vars (v : Variables) (semicolon : Location) : Clause .entry
  | single (s : Clause .statement) : Clause .entry
  | nothing : Clause .entries
  | another (before : Clause .entries) (last : Clause .entry) : Clause .entries

/-- The body of a `for` stands in a block with the step of the loop, if there is one. -/
def stepped (body : Stmt) : Option Stmt → Stmt
  | none => body
  | some step => .block [body, step] body.loc

theorem stepped_eq (body : Stmt) (step : Option Stmt) :
    stepped body step = Parser.withStep body step := by
  cases step <;> rfl

namespace Clause

/-- The tokens that a derivation derives. -/
def tokens : {r : Role} → Clause r → List Token
  | _, .block opening body closing =>
    ⟨.mark .braceOpen, opening⟩ :: (body.tokens ++ [⟨.mark .braceClose, closing⟩])
  | _, .ifThen loc opening cond closing body =>
    ⟨.keyword .ifKw, loc⟩ :: ⟨.mark .parenOpen, opening⟩ ::
      (cond.tokens ++ ⟨.mark .parenClose, closing⟩ :: body.tokens)
  | _, .ifElse loc opening cond closing body elseLoc other =>
    ⟨.keyword .ifKw, loc⟩ :: ⟨.mark .parenOpen, opening⟩ ::
      (cond.tokens ++ ⟨.mark .parenClose, closing⟩ ::
        (body.tokens ++ ⟨.keyword .elseKw, elseLoc⟩ :: other.tokens))
  | _, .doWhile loc body whileLoc opening cond closing semicolon =>
    ⟨.keyword .doKw, loc⟩ :: (body.tokens ++ ⟨.keyword .whileKw, whileLoc⟩ ::
      ⟨.mark .parenOpen, opening⟩ :: (cond.tokens ++
        [⟨.mark .parenClose, closing⟩, ⟨.mark .semicolon, semicolon⟩]))
  | _, .forLoop loc opening init afterInit cond afterCond step closing body =>
    ⟨.keyword .forKw, loc⟩ :: ⟨.mark .parenOpen, opening⟩ ::
      (init.tokens ++ ⟨.mark .semicolon, afterInit⟩ ::
        (Phrase.optionTokens cond ++ ⟨.mark .semicolon, afterCond⟩ ::
          (Phrase.optionTokens step ++ ⟨.mark .parenClose, closing⟩ :: body.tokens)))
  | _, .whileLoop loc opening cond closing body =>
    ⟨.keyword .whileKw, loc⟩ :: ⟨.mark .parenOpen, opening⟩ ::
      (cond.tokens ++ ⟨.mark .parenClose, closing⟩ :: body.tokens)
  | _, .returning loc value semicolon =>
    ⟨.keyword .returnKw, loc⟩ :: (Phrase.optionTokens value ++ [⟨.mark .semicolon, semicolon⟩])
  | _, .expr e semicolon => e.tokens ++ [⟨.mark .semicolon, semicolon⟩]
  | _, .vars v semicolon => v.tokens ++ [⟨.mark .semicolon, semicolon⟩]
  | _, .single s => s.tokens
  | _, .nothing => []
  | _, .another before last => before.tokens ++ last.tokens

/-- The tree of a derivation. Every loop becomes the loop with the test before the body. -/
def build : {r : Role} → Clause r → SymbolTable → r.Tree × SymbolTable
  | _, .block opening body _, t => (.block (body.build t).1 opening, (body.build t).2)
  | _, .ifThen loc _ cond _ body, t =>
    let c := cond.build t
    let b := body.build c.2
    (.conditional c.1 b.1 none loc, b.2)
  | _, .ifElse loc _ cond _ body _ other, t =>
    let c := cond.build t
    let b := body.build c.2
    let o := other.build b.2
    (.conditional c.1 b.1 (some o.1) loc, o.2)
  | _, .doWhile loc body _ _ cond _ _, t =>
    let b := body.build t
    let c := cond.build b.2
    (.block [b.1, .loop c.1 b.1 loc] loc, c.2)
  | _, .forLoop loc _ init _ cond afterCond step _ body, t =>
    let i := init.build t
    let c := Phrase.optionBuild cond i.2
    let n := Phrase.optionStatement step c.2
    let b := body.build n.2
    (.block (i.1 ++ [.loop (c.1.getD (.literal (.bool true) afterCond)) (stepped b.1 n.1) loc]) loc,
      b.2)
  | _, .whileLoop loc _ cond _ body, t =>
    let c := cond.build t
    let b := body.build c.2
    (.loop c.1 b.1 loc, b.2)
  | _, .returning loc value _, t =>
    (.returning (Phrase.optionBuild value t).1 loc, (Phrase.optionBuild value t).2)
  | _, .expr e _, t => e.statement t
  | _, .vars v _, t => v.build t
  | _, .single s, t => ([(s.build t).1], (s.build t).2)
  | _, .nothing, t => ([], t)
  | _, .another before last, t =>
    let b := before.build t
    (b.1 ++ (last.build b.2).1, (last.build b.2).2)

/-- How many statements and operands stand inside each other. -/
def depth : {r : Role} → Clause r → Nat
  | _, .block _ body _ => body.depth + 1
  | _, .ifThen _ _ cond _ body => max cond.depth body.depth + 1
  | _, .ifElse _ _ cond _ body _ other => max cond.depth (max body.depth other.depth) + 1
  | _, .doWhile _ body _ _ cond _ _ => max body.depth cond.depth + 1
  | _, .forLoop _ _ init _ cond _ step _ body =>
    max init.depth (max (Phrase.optionDepth cond) (max (Phrase.optionDepth step) body.depth)) + 1
  | _, .whileLoop _ _ cond _ body => max cond.depth body.depth + 1
  | _, .returning _ value _ => Phrase.optionDepth value + 1
  | _, .expr e _ => e.depth + 1
  | _, .vars v _ => v.depth
  | _, .single s => s.depth
  | _, .nothing => 0
  | _, .another before last => max before.depth last.depth

/-- The derivation ends in a conditional without `else`, to which an `else` that follows would
belong. -/
def isOpen : {r : Role} → Clause r → Bool
  | _, .ifThen _ _ _ _ _ => true
  | _, .ifElse _ _ _ _ _ _ other => other.isOpen
  | _, .forLoop _ _ _ _ _ _ _ _ body => body.isOpen
  | _, .whileLoop _ _ _ _ body => body.isOpen
  | _, _ => false

/-- Every `else` belongs to the nearest conditional that is open. -/
def NearestElse : {r : Role} → Clause r → Prop
  | _, .block _ body _ => body.NearestElse
  | _, .ifThen _ _ _ _ body => body.NearestElse
  | _, .ifElse _ _ _ _ body _ other => body.isOpen = false ∧ body.NearestElse ∧ other.NearestElse
  | _, .doWhile _ body _ _ _ _ _ => body.NearestElse
  | _, .forLoop _ _ _ _ _ _ _ _ body => body.NearestElse
  | _, .whileLoop _ _ _ _ body => body.NearestElse
  | _, .returning _ _ _ | _, .expr _ _ | _, .vars _ _ | _, .nothing => True
  | _, .single s => s.NearestElse
  | _, .another before last => before.NearestElse ∧ last.NearestElse

attribute [grind =] tokens build depth isOpen NearestElse

end Clause

end Ember.Grammar
