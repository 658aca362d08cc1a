import Ember.Proofs.Grammar.Program
import Mathlib.Logic.Basic

namespace Ember

/-- An expression without places and without parentheses, the variables by their names. -/
inductive ExprSketch where
  | assign (target value : ExprSketch)
  | binary (op : BinaryOp) (left right : ExprSketch)
  | unary (op : UnaryOp) (operand : ExprSketch)
  | call (callee : ExprSketch) (args : List ExprSketch)
  | var (name : String)
  | literal (value : Literal)

/-- A statement without places, what it names by its name. -/
inductive StmtSketch where
  | function (name : String) (params : List (String × Datatype)) (result : Datatype)
      (body : List StmtSketch)
  | var (name : String) (type : Datatype) (init : Option ExprSketch)
  | block (body : List StmtSketch)
  | conditional (cond : ExprSketch) (body : StmtSketch) (alternative : Option StmtSketch)
  | loop (cond : ExprSketch) (body : StmtSketch)
  | returning (value : Option ExprSketch)
  | expr (e : ExprSketch)

mutual

def Expr.sketch (name : Int → String) : Expr → ExprSketch
  | .assign target value _ => .assign (target.sketch name) (value.sketch name)
  | .binary op left right _ => .binary op (left.sketch name) (right.sketch name)
  | .unary op operand _ => .unary op (operand.sketch name)
  | .call callee args _ => .call (callee.sketch name) (Expr.sketches name args)
  | .group inner _ => inner.sketch name
  | .var id _ => .var (name id)
  | .literal value _ => .literal value

def Expr.sketches (name : Int → String) : List Expr → List ExprSketch
  | [] => []
  | e :: rest => e.sketch name :: Expr.sketches name rest

end

def Param.sketch (name : Int → String) (p : Param) : String × Datatype := (name p.id, p.type)

mutual

def Stmt.sketch (name : Int → String) : Stmt → StmtSketch
  | .function id params result body _ _ =>
    .function (name id) (params.map (Param.sketch name)) result (Stmt.sketches name body)
  | .var id type init _ => .var (name id) type (init.map (Expr.sketch name))
  | .block body _ => .block (Stmt.sketches name body)
  | .conditional cond body none _ => .conditional (cond.sketch name) (body.sketch name) none
  | .conditional cond body (some other) _ =>
    .conditional (cond.sketch name) (body.sketch name) (some (other.sketch name))
  | .loop cond body _ => .loop (cond.sketch name) (body.sketch name)
  | .returning value _ => .returning (value.map (Expr.sketch name))
  | .expr e _ => .expr (e.sketch name)

def Stmt.sketches (name : Int → String) : List Stmt → List StmtSketch
  | [] => []
  | s :: rest => s.sketch name :: Stmt.sketches name rest

end

/-- A program without places and without parentheses, everything by its name. -/
def Program.sketch (name : Int → String) (p : Program) : String × List StmtSketch :=
  (p.file, Stmt.sketches name p.body)

theorem Expr.sketches_append (name : Int → String) (as bs : List Expr) :
    Expr.sketches name (as ++ bs) = Expr.sketches name as ++ Expr.sketches name bs := by
  induction as with
  | nil => rfl
  | cons a as ih => simp [Expr.sketches, ih]

theorem Stmt.sketches_append (name : Int → String) (as bs : List Stmt) :
    Stmt.sketches name (as ++ bs) = Stmt.sketches name as ++ Stmt.sketches name bs := by
  induction as with
  | nil => rfl
  | cons a as ih => simp [Stmt.sketches, ih]

namespace SymbolTable

/-- Every entry of the first table has its name in the second one too. -/
def Keeps (t t' : SymbolTable) : Prop :=
  ∀ id symbol, t.get? id = some symbol →
    ∃ symbol', t'.get? id = some symbol' ∧ symbol'.name = symbol.name

theorem Keeps.refl (t : SymbolTable) : t.Keeps t := fun _ symbol h => ⟨symbol, h, rfl⟩

theorem Keeps.trans {t t' t'' : SymbolTable} (h : t.Keeps t') (h' : t'.Keeps t'') :
    t.Keeps t'' := by
  intro id symbol hget
  obtain ⟨symbol', hget', hname'⟩ := h id symbol hget
  obtain ⟨symbol'', hget'', hname''⟩ := h' id symbol' hget'
  exact ⟨symbol'', hget'', hname''.trans hname'⟩

theorem keeps_add (t : SymbolTable) (name : String) (type : Datatype) :
    t.Keeps (t.add name type).2 := by
  unfold add
  split
  · exact .refl t
  · intro id symbol hget
    refine ⟨symbol, ?_, rfl⟩
    unfold get? at hget ⊢
    split at hget
    · cases hget
    · obtain ⟨hlt, _⟩ := Array.getElem?_eq_some_iff.1 hget
      rwa [if_neg (by assumption), Array.getElem?_push_lt hlt, ← Array.getElem?_eq_getElem hlt]

theorem keeps_retype (t : SymbolTable) (id : Int) (type : Datatype) :
    t.Keeps (t.retype id type) := by
  unfold retype
  split
  · exact .refl t
  · intro id' symbol hget
    unfold get? at hget ⊢
    split at hget
    · cases hget
    · rw [if_neg (by assumption), Array.getElem?_modify, hget]
      split
      · exact ⟨_, rfl, rfl⟩
      · exact ⟨symbol, rfl, rfl⟩

/-- The id of a name that was entered has the name. -/
theorem get?_add (t : SymbolTable) (name : String) (type : Datatype) :
    ∃ symbol, (t.add name type).2.get? (t.add name type).1 = some symbol ∧
      symbol.name = name := by
  unfold add
  split
  · rename_i id hfind
    obtain ⟨hlt, hname, _⟩ := Array.findIdx?_eq_some_iff_getElem.1 hfind
    refine ⟨t.entries[id], ?_, by simpa using hname⟩
    simp [get?, hlt]
  · refine ⟨⟨name, type⟩, ?_, rfl⟩
    simp [get?, size]

theorem Keeps.nameOf_add {t t' : SymbolTable} {name : String} {type : Datatype}
    (h : (t.add name type).2.Keeps t') : t'.nameOf (t.add name type).1 = name := by
  obtain ⟨symbol, hget, hname⟩ := t.get?_add name type
  obtain ⟨symbol', hget', hname'⟩ := h _ _ hget
  simp [nameOf, hget', hname', hname]

end SymbolTable

namespace Grammar

/-- What a nonterminal stands for in the sketch of a program. -/
abbrev Level.Sketch : Level → Type
  | .arguments => List ExprSketch
  | _ => ExprSketch

def Level.sketchOf (name : Int → String) : (l : Level) → l.Tree → l.Sketch
  | .arguments, es => Expr.sketches name es
  | .expression, e | .binary _, e | .unary, e | .call, e | .primary, e => Expr.sketch name e

/-- The sketch of the value that an assignment stores. -/
def assignedSketch (op : AssignOp) (target value : ExprSketch) : ExprSketch :=
  match op with
  | .plain => value
  | .compound op => .binary op target value

namespace Phrase

/-- The sketch of the tree that a derivation builds. -/
def sketch : {l : Level} → Phrase l → l.Sketch
  | _, .named name _ => .var name
  | _, .truth b _ => .literal (.bool b)
  | _, .integer digits _ => .literal (literalOf (numeral digits))
  | _, .group _ inner _ => inner.sketch
  | _, .plain inner => inner.sketch
  | _, .callEmpty callee _ _ => .call callee.sketch []
  | _, .callWith callee _ args _ => .call callee.sketch args.sketch
  | _, .operand inner => inner.sketch
  | _, .operator _ op _ inner _ => .unary op inner.sketch
  | _, .lone inner => inner.sketch
  | _, .tighter inner => inner.sketch
  | _, .chain left _ op _ right _ => .binary op left.sketch right.sketch
  | _, .simple inner => inner.sketch
  | _, .assign target _ op _ value _ =>
    .assign target.sketch (assignedSketch op target.sketch value.sketch)
  | _, .argument inner => [inner.sketch]
  | _, .another before _ last => before.sketch ++ [last.sketch]

theorem keeps_build {l : Level} (e : Phrase l) (t : SymbolTable) : t.Keeps (e.build t).2 := by
  induction e generalizing t with
  | named name loc => exact t.keeps_add name .empty
  | truth | integer => exact .refl t
  | group opening inner closing ih => exact ih t
  | plain inner ih => exact ih t
  | callEmpty callee opening closing ih => exact ih t
  | callWith callee opening args closing ih ihArgs => exact (ih t).trans (ihArgs _)
  | operand inner ih => exact ih t
  | operator mark op loc inner listed ih => exact ih t
  | lone inner ih => exact ih t
  | tighter inner ih => exact ih t
  | chain left mark op loc right listed ih ihRight => exact (ih t).trans (ihRight _)
  | simple inner ih => exact ih t
  | assign target mark op loc value listed ih ihValue => exact (ih t).trans (ihValue _)
  | argument inner ih => exact ih t
  | another before comma last ih ihLast => exact (ih t).trans (ihLast _)

/-- In a table that keeps the names of a derivation, its tree has its sketch. -/
theorem sketch_build {l : Level} (e : Phrase l) (t : SymbolTable) {t' : SymbolTable}
    (h : (e.build t).2.Keeps t') : l.sketchOf t'.nameOf (e.build t).1 = e.sketch := by
  induction e generalizing t with
  | named name loc => exact congrArg ExprSketch.var h.nameOf_add
  | truth | integer => rfl
  | group opening inner closing ih => exact ih t h
  | plain inner ih => exact ih t h
  | callEmpty callee opening closing ih => exact congrArg (ExprSketch.call · []) (ih t h)
  | callWith callee opening args closing ih ihArgs =>
    exact congrArg₂ ExprSketch.call (ih t ((args.keeps_build _).trans h)) (ihArgs _ h)
  | operand inner ih => exact ih t h
  | operator mark op loc inner listed ih => exact congrArg (ExprSketch.unary op) (ih t h)
  | lone inner ih => exact ih t h
  | tighter inner ih => exact ih t h
  | chain left mark op loc right listed ih ihRight =>
    exact congrArg₂ (ExprSketch.binary op) (ih t ((right.keeps_build _).trans h)) (ihRight _ h)
  | simple inner ih => exact ih t h
  | assign target mark op loc value listed ih ihValue =>
    have htarget := ih t ((value.keeps_build _).trans h)
    have hvalue := ihValue _ h
    refine congrArg₂ ExprSketch.assign htarget ?_
    cases op with
    | plain => exact hvalue
    | compound op => exact congrArg₂ (ExprSketch.binary op) htarget hvalue
  | argument inner ih => exact congrArg (fun x => [x]) (ih t h)
  | another before comma last ih ihLast =>
    have hbefore := ih t ((last.keeps_build _).trans h)
    have hlast := ihLast _ h
    refine (Expr.sketches_append _ _ _).trans ?_
    exact congrArg₂ (fun (xs : List ExprSketch) (x : ExprSketch) => xs ++ [x]) hbefore hlast

end Phrase

theorem Phrase.keeps_optionBuild (e : Option (Phrase .expression)) (t : SymbolTable) :
    t.Keeps (Phrase.optionBuild e t).2 := by
  cases e with
  | none => exact .refl t
  | some e => exact e.keeps_build t

theorem Phrase.sketch_optionBuild (e : Option (Phrase .expression)) (t : SymbolTable)
    {t' : SymbolTable} (h : (Phrase.optionBuild e t).2.Keeps t') :
    (Phrase.optionBuild e t).1.map (Expr.sketch t'.nameOf) = e.map Phrase.sketch := by
  cases e with
  | none => rfl
  | some e => exact congrArg some (e.sketch_build t h)

namespace Declarator

def sketch (type : Datatype) (d : Declarator) : StmtSketch :=
  .var d.name type ((d.init.map (·.2)).map Phrase.sketch)

theorem keeps_build (type : Datatype) (d : Declarator) (t : SymbolTable) :
    t.Keeps (d.build type t).2 :=
  (t.keeps_add d.name type).trans (Phrase.keeps_optionBuild _ _)

theorem sketch_build (type : Datatype) (d : Declarator) (t : SymbolTable) {t' : SymbolTable}
    (h : (d.build type t).2.Keeps t') :
    (d.build type t).1.sketch t'.nameOf = d.sketch type := by
  have hname := SymbolTable.Keeps.nameOf_add ((Phrase.keeps_optionBuild _ _).trans h)
  have hinit := Phrase.sketch_optionBuild _ _ h
  simp only [build, Stmt.sketch, sketch, hname, hinit]

end Declarator

namespace Declarators

def sketch (type : Datatype) : Declarators → List StmtSketch
  | one d => [d.sketch type]
  | another before _ d => before.sketch type ++ [d.sketch type]

theorem keeps_build (type : Datatype) (ds : Declarators) (t : SymbolTable) :
    t.Keeps (ds.build type t).2 := by
  induction ds with
  | one d => exact d.keeps_build type t
  | another before comma d ih => exact ih.trans (d.keeps_build type _)

theorem sketch_build (type : Datatype) (ds : Declarators) (t : SymbolTable) {t' : SymbolTable}
    (h : (ds.build type t).2.Keeps t') :
    Stmt.sketches t'.nameOf (ds.build type t).1 = ds.sketch type := by
  induction ds with
  | one d => exact congrArg (fun x => [x]) (d.sketch_build type t h)
  | another before comma d ih =>
    have hbefore := ih ((d.keeps_build type _).trans h)
    have hlast := d.sketch_build type _ h
    rw [build, Stmt.sketches_append, hbefore]
    exact congrArg (fun x => before.sketch type ++ [x]) hlast

end Declarators

namespace ForInit

def sketch : ForInit → List StmtSketch
  | absent => []
  | vars v => v.declarators.sketch v.typeName.type
  | expression e => [.expr e.sketch]

theorem keeps_build (i : ForInit) (t : SymbolTable) : t.Keeps (i.build t).2 := by
  cases i with
  | absent => exact .refl t
  | vars v => exact v.declarators.keeps_build _ t
  | expression e => exact e.keeps_build t

theorem sketch_build (i : ForInit) (t : SymbolTable) {t' : SymbolTable}
    (h : (i.build t).2.Keeps t') : Stmt.sketches t'.nameOf (i.build t).1 = i.sketch := by
  cases i with
  | absent => rfl
  | vars v => exact v.declarators.sketch_build _ t h
  | expression e => exact congrArg (fun x => [StmtSketch.expr x]) (e.sketch_build t h)

end ForInit

abbrev Role.Sketch : Role → Type
  | .statement => StmtSketch
  | .entry | .entries => List StmtSketch

def Role.sketchOf (name : Int → String) : (r : Role) → r.Tree → r.Sketch
  | .statement, s => Stmt.sketch name s
  | .entry, ss | .entries, ss => Stmt.sketches name ss

/-- The sketch of the body of a `for` with its step after it. -/
def withStepSketch (body : StmtSketch) (step : Option (Phrase .expression)) : StmtSketch :=
  match step with
  | none => body
  | some e => .block [body, .expr e.sketch]

namespace Clause

def sketch : {r : Role} → Clause r → r.Sketch
  | _, .block _ body _ => .block body.sketch
  | _, .ifThen _ _ cond _ body => .conditional cond.sketch body.sketch none
  | _, .ifElse _ _ cond _ body _ other =>
    .conditional cond.sketch body.sketch (some other.sketch)
  | _, .doWhile _ body _ _ cond _ _ => .block [body.sketch, .loop cond.sketch body.sketch]
  | _, .forLoop _ _ init _ cond _ step _ body =>
    .block (init.sketch ++ [.loop ((cond.map Phrase.sketch).getD (.literal (.bool true)))
      (withStepSketch body.sketch step)])
  | _, .whileLoop _ _ cond _ body => .loop cond.sketch body.sketch
  | _, .returning _ value _ => .returning (value.map Phrase.sketch)
  | _, .expr e _ => .expr e.sketch
  | _, .vars v _ => v.declarators.sketch v.typeName.type
  | _, .single s => [s.sketch]
  | _, .nothing => []
  | _, .another before last => before.sketch ++ last.sketch

theorem keeps_optionStatement (e : Option (Phrase .expression)) (t : SymbolTable) :
    t.Keeps (Phrase.optionStatement e t).2 := by
  cases e with
  | none => exact .refl t
  | some e => exact e.keeps_build t

theorem keeps_build {r : Role} (c : Clause r) (t : SymbolTable) : t.Keeps (c.build t).2 := by
  induction c generalizing t with
  | block opening body closing ih => exact ih t
  | ifThen loc opening cond closing body ih => exact (cond.keeps_build t).trans (ih _)
  | ifElse loc opening cond closing body elseLoc other ih ihOther =>
    exact ((cond.keeps_build t).trans (ih _)).trans (ihOther _)
  | doWhile loc body whileLoc opening cond closing semicolon ih =>
    exact (ih t).trans (cond.keeps_build _)
  | forLoop loc opening init afterInit cond afterCond step closing body ih =>
    exact (((init.keeps_build t).trans (Phrase.keeps_optionBuild cond _)).trans
      (keeps_optionStatement step _)).trans (ih _)
  | whileLoop loc opening cond closing body ih => exact (cond.keeps_build t).trans (ih _)
  | returning loc value semicolon => exact Phrase.keeps_optionBuild value t
  | expr e semicolon => exact e.keeps_build t
  | vars v semicolon => exact v.declarators.keeps_build _ t
  | single s ih => exact ih t
  | nothing => exact .refl t
  | another before last ih ihLast => exact (ih t).trans (ihLast _)

theorem sketch_stepped (body : Stmt) (step : Option (Phrase .expression)) (t : SymbolTable)
    {t' : SymbolTable} (h : (Phrase.optionStatement step t).2.Keeps t') :
    (stepped body (Phrase.optionStatement step t).1).sketch t'.nameOf =
      withStepSketch (body.sketch t'.nameOf) step := by
  cases step with
  | none => rfl
  | some e =>
    have hstep := e.sketch_build t h
    exact congrArg (fun x => StmtSketch.block [body.sketch t'.nameOf, .expr x]) hstep

theorem sketch_build {r : Role} (c : Clause r) (t : SymbolTable) {t' : SymbolTable}
    (h : (c.build t).2.Keeps t') : r.sketchOf t'.nameOf (c.build t).1 = c.sketch := by
  induction c generalizing t with
  | block opening body closing ih => exact congrArg StmtSketch.block (ih t h)
  | ifThen loc opening cond closing body ih =>
    have hcond := cond.sketch_build t ((body.keeps_build _).trans h)
    exact congrArg₂ (fun x y => StmtSketch.conditional x y none) hcond (ih _ h)
  | ifElse loc opening cond closing body elseLoc other ih ihOther =>
    have hkeeps := (other.keeps_build _).trans h
    have hcond := cond.sketch_build t ((body.keeps_build _).trans hkeeps)
    have hbody := ih _ hkeeps
    have hother := ihOther _ h
    simp only [Level.sketchOf] at hcond
    simp only [Role.sketchOf] at hbody hother ⊢
    simp only [build, Stmt.sketch, sketch, hcond, hbody, hother]
  | doWhile loc body whileLoc opening cond closing semicolon ih =>
    have hbody := ih t ((cond.keeps_build _).trans h)
    have hcond := cond.sketch_build _ h
    simp only [Level.sketchOf] at hcond
    simp only [Role.sketchOf] at hbody ⊢
    simp only [build, Stmt.sketch, Stmt.sketches, sketch, hcond, hbody]
  | forLoop loc opening init afterInit cond afterCond step closing body ih =>
    have hkeepsStep := (body.keeps_build _).trans h
    have hkeepsCond := (keeps_optionStatement step _).trans hkeepsStep
    have hinit := init.sketch_build t ((Phrase.keeps_optionBuild cond _).trans hkeepsCond)
    have hcond := Phrase.sketch_optionBuild cond _ hkeepsCond
    have hstep := fun body => sketch_stepped body step _ hkeepsStep
    have hbody := ih _ h
    simp only [Role.sketchOf] at hbody ⊢
    simp only [build, Stmt.sketch, Stmt.sketches_append, Stmt.sketches, sketch, hinit, hstep, hbody,
      ← hcond]
    cases cond <;> rfl
  | whileLoop loc opening cond closing body ih =>
    have hcond := cond.sketch_build t ((body.keeps_build _).trans h)
    exact congrArg₂ StmtSketch.loop hcond (ih _ h)
  | returning loc value semicolon =>
    exact congrArg StmtSketch.returning (Phrase.sketch_optionBuild value t h)
  | expr e semicolon => exact congrArg StmtSketch.expr (e.sketch_build t h)
  | vars v semicolon => exact v.declarators.sketch_build _ t h
  | single s ih => exact congrArg (fun x => [x]) (ih t h)
  | nothing => rfl
  | another before last ih ihLast =>
    have hbefore := ih t ((last.keeps_build _).trans h)
    refine (Stmt.sketches_append _ _ _).trans ?_
    exact congrArg₂ (fun (xs ys : List StmtSketch) => xs ++ ys) hbefore (ihLast _ h)

end Clause

namespace Parameters

def sketch : Parameters → List (String × Datatype)
  | one p => [(p.name, p.typeName.type)]
  | another before _ p => before.sketch ++ [(p.name, p.typeName.type)]

theorem keeps_build (ps : Parameters) (t : SymbolTable) : t.Keeps (ps.build t).2 := by
  induction ps with
  | one p => exact t.keeps_add _ _
  | another before comma p ih => exact ih.trans (SymbolTable.keeps_add _ _ _)

theorem sketch_build (ps : Parameters) (t : SymbolTable) {t' : SymbolTable}
    (h : (ps.build t).2.Keeps t') :
    (ps.build t).1.map (Param.sketch t'.nameOf) = ps.sketch := by
  induction ps with
  | one p => exact congrArg (fun x => [(x, p.typeName.type)]) h.nameOf_add
  | another before comma p ih =>
    have hbefore := ih ((SymbolTable.keeps_add _ _ _).trans h)
    have hname := h.nameOf_add
    simp only [build, List.map_append, hbefore, sketch]
    exact congrArg (fun x => before.sketch ++ [(x, p.typeName.type)]) hname

theorem keeps_optionBuild (ps : Option Parameters) (t : SymbolTable) :
    t.Keeps (optionBuild ps t).2 := by
  cases ps with
  | none => exact .refl t
  | some ps => exact ps.keeps_build t

theorem sketch_optionBuild (ps : Option Parameters) (t : SymbolTable) {t' : SymbolTable}
    (h : (optionBuild ps t).2.Keeps t') :
    (optionBuild ps t).1.map (Param.sketch t'.nameOf) = (ps.map sketch).getD [] := by
  cases ps with
  | none => rfl
  | some ps => exact ps.sketch_build t h

end Parameters

namespace Function

def sketch (f : Function) : StmtSketch :=
  .function f.name ((f.params.map Parameters.sketch).getD []) f.result.type f.body.sketch

/-- The table with the name and the parameters of a function keeps the names before it. -/
theorem keeps_params (f : Function) (t : SymbolTable) :
    let id := t.add f.name .empty
    let ps := Parameters.optionBuild f.params id.2
    ps.2.Keeps (f.build t).2 :=
  (SymbolTable.keeps_retype _ _ _).trans (f.body.keeps_build _)

theorem keeps_build (f : Function) (t : SymbolTable) : t.Keeps (f.build t).2 :=
  ((t.keeps_add _ _).trans (Parameters.keeps_optionBuild _ _)).trans (f.keeps_params t)

theorem sketch_build (f : Function) (t : SymbolTable) {t' : SymbolTable}
    (h : (f.build t).2.Keeps t') : (f.build t).1.sketch t'.nameOf = f.sketch := by
  have hkeeps := (f.keeps_params t).trans h
  have hname := ((Parameters.keeps_optionBuild _ _).trans hkeeps).nameOf_add
  have hparams := Parameters.sketch_optionBuild _ _ hkeeps
  have hbody := f.body.sketch_build _ h
  simp only [Role.sketchOf] at hbody
  simp only [build, Stmt.sketch, sketch, hname, hparams, hbody]

end Function

namespace Declaration

def sketch : Declaration → List StmtSketch
  | function f => [f.sketch]
  | entry e => e.sketch

theorem keeps_build (d : Declaration) (t : SymbolTable) : t.Keeps (d.build t).2 := by
  cases d with
  | function f => exact f.keeps_build t
  | entry e => exact e.keeps_build t

theorem sketch_build (d : Declaration) (t : SymbolTable) {t' : SymbolTable}
    (h : (d.build t).2.Keeps t') : Stmt.sketches t'.nameOf (d.build t).1 = d.sketch := by
  cases d with
  | function f => exact congrArg (fun x => [x]) (f.sketch_build t h)
  | entry e => exact e.sketch_build t h

end Declaration

namespace Module

def sketch : Module → List StmtSketch
  | nothing => []
  | another before last => before.sketch ++ last.sketch

theorem sketch_build (m : Module) (t : SymbolTable) {t' : SymbolTable}
    (h : (m.build t).2.Keeps t') : Stmt.sketches t'.nameOf (m.build t).1 = m.sketch := by
  induction m generalizing t' with
  | nothing => rfl
  | another before last ih =>
    have hbefore := ih ((last.keeps_build _).trans h)
    rw [build, Stmt.sketches_append, hbefore, last.sketch_build _ h]
    rfl

end Module

end Grammar

end Ember
