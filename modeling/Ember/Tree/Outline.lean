import Ember.SymbolTable
import Ember.Tree
import Ember.Tree.Kind

namespace Ember

/-- A node of a tree without its children. -/
inductive Head where
  | program (file : String)
  | param (type : Datatype) (id : Int)
  | function (id : Int) (result : Datatype)
  | varDecl (type : Datatype) (id : Int)
  | block | conditional | loop | returning | exprStmt
  | assign
  | binary (op : BinaryOp)
  | unary (op : UnaryOp)
  | call | group
  | var (id : Int)
  | literal (value : Literal)

namespace Head

def kind : Head → NodeKind
  | program _ => .program
  | param _ _ => .param
  | function _ _ => .function
  | varDecl _ _ => .varDecl
  | block => .block
  | conditional => .conditional
  | loop => .loop
  | returning => .returning
  | exprStmt => .exprStmt
  | assign => .assign
  | binary _ => .binary
  | unary _ => .unary
  | call => .call
  | group => .group
  | var _ => .var
  | literal _ => .literal

/-- The symbol that the node names. -/
def id? : Head → Option Int
  | param _ id | function id _ | varDecl _ id | var id => some id
  | _ => none

/-- What is told of a node beyond its kind. -/
def details (name : Int → String) : Head → List String
  | program file => [file]
  | param type id => [type.name, name id]
  | function id result => [name id ++ ":", result.name]
  | varDecl type id => [type.name, name id]
  | binary op => [op.spelling]
  | unary op => [op.spelling]
  | var id => [name id]
  | literal l => [l.type.name, l.render]
  | _ => []

/-- A description of the node in one line. -/
def label (name : Int → String) (h : Head) : String :=
  " ".intercalate (h.kind.name :: h.details name)

end Head

/-- A tree of nodes of any kind, the children in source order. Parts that are absent have no
node. -/
inductive Outline where
  | node (head : Head) (loc : Location) (children : List Outline)

mutual

def Expr.outline : Expr → Outline
  | .assign target value loc => .node .assign loc [target.outline, value.outline]
  | .binary op left right loc => .node (.binary op) loc [left.outline, right.outline]
  | .unary op operand loc => .node (.unary op) loc [operand.outline]
  | .call callee args loc => .node .call loc (callee.outline :: Expr.outlines args)
  | .group inner loc => .node .group loc [inner.outline]
  | .var id loc => .node (.var id) loc []
  | .literal value loc => .node (.literal value) loc []

def Expr.outlines : List Expr → List Outline
  | [] => []
  | e :: rest => e.outline :: Expr.outlines rest

end

theorem Expr.outlines_eq_map (es : List Expr) : Expr.outlines es = es.map Expr.outline := by
  induction es with
  | nil => rfl
  | cons e rest ih => rw [Expr.outlines, ih, List.map_cons]

def Param.outline (p : Param) : Outline := .node (.param p.type p.id) p.loc []

mutual

def Stmt.outline : Stmt → Outline
  | .function id params result body bodyLoc loc =>
    .node (.function id result) loc
      (params.map Param.outline ++ [.node .block bodyLoc (Stmt.outlines body)])
  | .var id type init loc => .node (.varDecl type id) loc (init.map Expr.outline).toList
  | .block body loc => .node .block loc (Stmt.outlines body)
  | .conditional cond body none loc => .node .conditional loc [cond.outline, body.outline]
  | .conditional cond body (some alternative) loc =>
    .node .conditional loc [cond.outline, body.outline, alternative.outline]
  | .loop cond body loc => .node .loop loc [cond.outline, body.outline]
  | .returning value loc => .node .returning loc (value.map Expr.outline).toList
  | .expr e loc => .node .exprStmt loc [e.outline]

def Stmt.outlines : List Stmt → List Outline
  | [] => []
  | s :: rest => s.outline :: Stmt.outlines rest

end

theorem Stmt.outlines_eq_map (ss : List Stmt) : Stmt.outlines ss = ss.map Stmt.outline := by
  induction ss with
  | nil => rfl
  | cons s rest ih => rw [Stmt.outlines, ih, List.map_cons]

def Program.outline (p : Program) : Outline :=
  .node (.program p.file) .none (Stmt.outlines p.body)

/-- A node of a numbered tree. The root has the parent -1. -/
structure Entry where
  id : Nat
  parent : Int
  depth : Nat
  head : Head
  loc : Location

mutual

/-- Numbers the nodes in pre-order, the root with `id`. -/
def Outline.entriesFrom (parent : Int) (depth id : Nat) : Outline → List Entry
  | .node head loc children =>
    ⟨id, parent, depth, head, loc⟩ :: Outline.childEntries id (depth + 1) (id + 1) children

/-- Numbers the nodes of the children of `parent`, the first of them with `id`. -/
def Outline.childEntries (parent : Int) (depth id : Nat) : List Outline → List Entry
  | [] => []
  | child :: rest =>
    let entries := child.entriesFrom parent depth id
    entries ++ Outline.childEntries parent depth (id + entries.length) rest

end

/-- The nodes of a tree in pre-order, numbered from 0. -/
def Outline.entries (o : Outline) : List Entry := o.entriesFrom (-1) 0 0

/-- The nodes of a program in pre-order. -/
def Program.entries (p : Program) : List Entry := p.outline.entries

namespace Entry

/-- The entry's label below its parent's, one level of depth two blanks. -/
def line (name : Int → String) (e : Entry) : String :=
  String.ofList (List.replicate (2 * e.depth) ' ') ++ e.head.label name ++ "\n"

/-- The report about the first symbol in the entries that is none of the table. -/
def breach? (table : SymbolTable) (entries : List Entry) : Option String :=
  (entries.filterMap (·.head.id?)).findSome? fun id =>
    if (table.get? id).isSome then none else some (table.rangeMessage id)

end Entry

/-- The report about the first symbol in the program that is none of the table. -/
def Program.breach? (table : SymbolTable) (p : Program) : Option String :=
  Entry.breach? table p.entries

/-- A dump of the tree, one node a line. -/
def Program.dump (name : Int → String) (p : Program) : String :=
  String.join (p.entries.map (·.line name))

end Ember
