import Ember.Parser.Program
import Ember.Proofs.Grammar.Statement

namespace Ember.Grammar

/-- A parameter of a function. -/
structure Parameter where
  typeName : TypeName
  name : String
  loc : Location

namespace Parameter

def tokens (p : Parameter) : List Token := [p.typeName.token, ⟨.identifier p.name, p.loc⟩]

def build (p : Parameter) (t : SymbolTable) : Param × SymbolTable :=
  (⟨(t.add p.name p.typeName.type).1, p.typeName.type, p.typeName.loc⟩,
    (t.add p.name p.typeName.type).2)

end Parameter

/-- One parameter or more, with commas between them. -/
inductive Parameters where
  | one (p : Parameter)
  | another (before : Parameters) (comma : Location) (p : Parameter)

namespace Parameters

def tokens : Parameters → List Token
  | one p => p.tokens
  | another before comma p => before.tokens ++ ⟨.mark .comma, comma⟩ :: p.tokens

def build : Parameters → SymbolTable → List Param × SymbolTable
  | one p, t => ([(p.build t).1], (p.build t).2)
  | another before _ p, t =>
    let ps := before.build t
    (ps.1 ++ [(p.build ps.2).1], (p.build ps.2).2)

/-- The tokens of parameters that may be absent. -/
def optionTokens (ps : Option Parameters) : List Token := (ps.map tokens).getD []

/-- The trees of parameters that may be absent. -/
def optionBuild (ps : Option Parameters) (t : SymbolTable) : List Param × SymbolTable :=
  match ps with
  | none => ([], t)
  | some ps => ps.build t

end Parameters

/-- A function with its body in braces. -/
structure Function where
  loc : Location
  name : String
  nameLoc : Location
  opening : Location
  params : Option Parameters
  closing : Location
  colon : Location
  result : TypeName
  bodyOpening : Location
  body : Clause .entries
  bodyClosing : Location

namespace Function

def tokens (f : Function) : List Token :=
  ⟨.keyword .fnKw, f.loc⟩ :: ⟨.identifier f.name, f.nameLoc⟩ :: ⟨.mark .parenOpen, f.opening⟩ ::
    (Parameters.optionTokens f.params ++ ⟨.mark .parenClose, f.closing⟩ ::
      ⟨.mark .colon, f.colon⟩ :: f.result.token :: ⟨.mark .braceOpen, f.bodyOpening⟩ ::
        (f.body.tokens ++ [⟨.mark .braceClose, f.bodyClosing⟩]))

/-- The name of a function is entered before its parameters, and takes the result type before
its body is read. -/
def build (f : Function) (t : SymbolTable) : Stmt × SymbolTable :=
  let id := t.add f.name .empty
  let ps := Parameters.optionBuild f.params id.2
  let b := f.body.build (ps.2.retype id.1 f.result.type)
  (.function id.1 ps.1 f.result.type b.1 f.bodyOpening f.loc, b.2)

end Function

/-- What stands at the level of the program itself. -/
inductive Declaration where
  | function (f : Function)
  | entry (e : Clause .entry)

namespace Declaration

def tokens : Declaration → List Token
  | function f => f.tokens
  | entry e => e.tokens

def build : Declaration → SymbolTable → List Stmt × SymbolTable
  | function f, t => ([(f.build t).1], (f.build t).2)
  | entry e, t => e.build t

def depth : Declaration → Nat
  | function f => f.body.depth
  | entry e => e.depth

def NearestElse : Declaration → Prop
  | function f => f.body.NearestElse
  | entry e => e.NearestElse

end Declaration

/-- Derivations of programs: any number of declarations. -/
inductive Module where
  | nothing
  | another (before : Module) (last : Declaration)

namespace Module

/-- The tokens that a derivation derives. -/
def tokens : Module → List Token
  | nothing => []
  | another before last => before.tokens ++ last.tokens

/-- The tree of a derivation, and the table with its names. -/
def build : Module → SymbolTable → List Stmt × SymbolTable
  | nothing, t => ([], t)
  | another before last, t =>
    let b := before.build t
    (b.1 ++ (last.build b.2).1, (last.build b.2).2)

/-- How many statements and operands stand inside each other. -/
def depth : Module → Nat
  | nothing => 0
  | another before last => max before.depth last.depth

/-- Every `else` belongs to the nearest conditional that is open. -/
def NearestElse : Module → Prop
  | nothing => True
  | another before last => before.NearestElse ∧ last.NearestElse

end Module

end Ember.Grammar
