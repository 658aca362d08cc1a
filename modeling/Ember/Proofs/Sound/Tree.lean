import Ember.Proofs.Fold.Run
import Ember.Proofs.Format.Sketch
import Ember.Tree.Outline

namespace Ember

mutual

/-- Every node of the tree is as told. -/
def Outline.All (q : Head → Location → Prop) : Outline → Prop
  | .node head loc children => q head loc ∧ Outline.AllIn q children

def Outline.AllIn (q : Head → Location → Prop) : List Outline → Prop
  | [] => True
  | o :: rest => o.All q ∧ Outline.AllIn q rest

end

namespace Outline

variable {q q' : Head → Location → Prop}

theorem allIn_iff {os : List Outline} : AllIn q os ↔ ∀ o ∈ os, o.All q := by
  induction os with
  | nil => simp [AllIn]
  | cons o rest ih => simp [AllIn, ih]

mutual

theorem All.mono (hq : ∀ head loc, q head loc → q' head loc) : (o : Outline) → o.All q → o.All q'
  | .node head loc children, h => ⟨hq head loc h.1, AllIn.mono hq children h.2⟩

theorem AllIn.mono (hq : ∀ head loc, q head loc → q' head loc) :
    (os : List Outline) → AllIn q os → AllIn q' os
  | [], _ => trivial
  | o :: rest, h => ⟨All.mono hq o h.1, AllIn.mono hq rest h.2⟩

end

mutual

/-- The nodes that are numbered are those of the tree. -/
theorem All.entriesFrom : (o : Outline) → o.All q → ∀ (parent : Int) (depth id : Nat),
    ∀ e ∈ o.entriesFrom parent depth id, q e.head e.loc
  | .node head loc children, h, parent, depth, id => by
    rw [Outline.entriesFrom]
    exact List.forall_mem_cons.2 ⟨h.1, AllIn.childEntries children h.2 _ _ _⟩

theorem AllIn.childEntries : (os : List Outline) → AllIn q os → ∀ (parent : Int) (depth id : Nat),
    ∀ e ∈ Outline.childEntries parent depth id os, q e.head e.loc
  | [], _, _, _, _ => by simp [Outline.childEntries]
  | o :: rest, h, _, _, _ => by
    rw [Outline.childEntries]
    exact List.forall_mem_append.2
      ⟨All.entriesFrom o h.1 _ _ _, AllIn.childEntries rest h.2 _ _ _⟩

end

end Outline

/-- A name is spelled where a node stands: a variable stands at its name, a parameter at the type
before its name and a function at the keyword before its name. -/
inductive Spelled (tokens : List Token) (name : String) : Head → Location → Prop
  | var {id : Int} {loc : Location} (h : ⟨.identifier name, loc⟩ ∈ tokens) :
      Spelled tokens name (.var id) loc
  | varDecl {type : Datatype} {id : Int} {loc : Location} (h : ⟨.identifier name, loc⟩ ∈ tokens) :
      Spelled tokens name (.varDecl type id) loc
  | param {type : Datatype} {id : Int} {l : Lexeme} {loc next : Location}
      (htype : l.datatype? = some type)
      (h : [⟨l, loc⟩, ⟨.identifier name, next⟩] <:+: tokens) :
      Spelled tokens name (.param type id) loc
  | function {id : Int} {result : Datatype} {loc next : Location}
      (h : [⟨.keyword .fnKw, loc⟩, ⟨.identifier name, next⟩] <:+: tokens) :
      Spelled tokens name (.function id result) loc

namespace Head

/-- The symbol that the node names is one of the table, and its operator one of the language. -/
structure Valid (table : SymbolTable) (h : Head) : Prop where
  entered : ∀ id ∈ h.id?, (table.get? id).isSome
  known : ∀ code, h ≠ .binary (.unknown code)

/-- The symbol that the node names is one of the table, with the name that is spelled where the node
stands. Its operator and its constant are ones of the language. -/
structure Sound (tokens : List Token) (table : SymbolTable) (h : Head) (loc : Location) : Prop where
  named : ∀ id ∈ h.id?, ∃ symbol, table.get? id = some symbol ∧ Spelled tokens symbol.name h loc
  known : ∀ code, h ≠ .binary (.unknown code)
  native : ∀ l, h = .literal l → l.IsNative

variable {tokens : List Token} {table table' : SymbolTable} {h : Head} {loc : Location}

theorem Valid.mono (hkeeps : table.Keeps table') (hv : h.Valid table) : h.Valid table' := by
  refine ⟨fun id hid => ?_, hv.known⟩
  obtain ⟨symbol, hget⟩ := Option.isSome_iff_exists.1 (hv.entered id hid)
  obtain ⟨symbol', hget', _⟩ := hkeeps id symbol hget
  exact Option.isSome_of_eq_some hget'

/-- A node that names nothing and holds no constant. -/
theorem sound_of_plain (hid : h.id? = none) (hknown : ∀ code, h ≠ .binary (.unknown code))
    (hliteral : ∀ l, h ≠ .literal l) : h.Sound tokens table loc :=
  ⟨fun id hmem => by simp [hid] at hmem, hknown, fun l hl => absurd hl (hliteral l)⟩

theorem sound_literal {l : Literal} (hl : l.IsNative) : (literal l).Sound tokens table loc :=
  ⟨nofun, nofun, fun _ h => literal.inj h ▸ hl⟩

namespace Sound

theorem mono (hkeeps : table.Keeps table') (hs : h.Sound tokens table loc) :
    h.Sound tokens table' loc := by
  refine ⟨fun id hid => ?_, hs.known, hs.native⟩
  obtain ⟨symbol, hget, hspelled⟩ := hs.named id hid
  obtain ⟨symbol', hget', hname⟩ := hkeeps id symbol hget
  exact ⟨symbol', hget', hname ▸ hspelled⟩

theorem valid (hs : h.Sound tokens table loc) : h.Valid table := by
  refine ⟨fun id hid => ?_, hs.known⟩
  obtain ⟨symbol, hget, _⟩ := hs.named id hid
  exact Option.isSome_of_eq_some hget

end Sound

end Head

section

variable (tokens : List Token) (table : SymbolTable)

def Expr.Sound (e : Expr) : Prop := e.outline.All (Head.Sound tokens table)

def Stmt.Sound (s : Stmt) : Prop := s.outline.All (Head.Sound tokens table)

def Param.Sound (p : Param) : Prop := p.outline.All (Head.Sound tokens table)

def Expr.Valid (e : Expr) : Prop := e.outline.All fun h _ => h.Valid table

def Stmt.Valid (s : Stmt) : Prop := s.outline.All fun h _ => h.Valid table

end

section

variable {q : Head → Location → Prop}

theorem Expr.allIn_outlines {es : List Expr} :
    Outline.AllIn q (Expr.outlines es) ↔ ∀ e ∈ es, e.outline.All q := by
  rw [Expr.outlines_eq_map, Outline.allIn_iff, List.forall_mem_map]

theorem Stmt.allIn_outlines {ss : List Stmt} :
    Outline.AllIn q (Stmt.outlines ss) ↔ ∀ s ∈ ss, s.outline.All q := by
  rw [Stmt.outlines_eq_map, Outline.allIn_iff, List.forall_mem_map]

theorem Expr.allIn_option {e : Option Expr} :
    Outline.AllIn q (e.map Expr.outline).toList ↔ ∀ x ∈ e, x.outline.All q := by
  cases e <;> simp [Outline.AllIn]

theorem Stmt.all_function {id : Int} {params : List Param} {result : Datatype} {body : List Stmt}
    {bodyLoc loc : Location} :
    (Stmt.function id params result body bodyLoc loc).outline.All q ↔
      q (.function id result) loc ∧ (∀ p ∈ params, p.outline.All q) ∧ q .block bodyLoc ∧
        ∀ s ∈ body, s.outline.All q := by
  simp only [Stmt.outline, Outline.All, Outline.allIn_iff, List.forall_mem_append,
    List.forall_mem_map, List.forall_mem_singleton, Stmt.outlines_eq_map]

end

section

variable {q q' : Head → Location → Prop}

mutual

/-- No part of an expression is a program. -/
theorem Expr.all_within (hq : ∀ h loc, h.kind ≠ .program → q h loc → q' h loc) :
    (e : Expr) → e.outline.All q → e.outline.All q'
  | .assign target value _, h =>
    ⟨hq _ _ nofun h.1, Expr.all_within hq target h.2.1, Expr.all_within hq value h.2.2.1, trivial⟩
  | .binary _ left right _, h =>
    ⟨hq _ _ nofun h.1, Expr.all_within hq left h.2.1, Expr.all_within hq right h.2.2.1, trivial⟩
  | .unary _ operand _, h => ⟨hq _ _ nofun h.1, Expr.all_within hq operand h.2.1, trivial⟩
  | .call callee args _, h =>
    ⟨hq _ _ nofun h.1, Expr.all_within hq callee h.2.1, Expr.allIn_within hq args h.2.2⟩
  | .group inner _, h => ⟨hq _ _ nofun h.1, Expr.all_within hq inner h.2.1, trivial⟩
  | .var _ _, h | .literal _ _, h => ⟨hq _ _ nofun h.1, trivial⟩

theorem Expr.allIn_within (hq : ∀ h loc, h.kind ≠ .program → q h loc → q' h loc) :
    (es : List Expr) → Outline.AllIn q (Expr.outlines es) → Outline.AllIn q' (Expr.outlines es)
  | [], _ => trivial
  | e :: rest, h => ⟨Expr.all_within hq e h.1, Expr.allIn_within hq rest h.2⟩

end

theorem Expr.allIn_option_within (hq : ∀ h loc, h.kind ≠ .program → q h loc → q' h loc)
    {e : Option Expr} (h : Outline.AllIn q (e.map Expr.outline).toList) :
    Outline.AllIn q' (e.map Expr.outline).toList :=
  Expr.allIn_option.2 fun x hx => Expr.all_within hq x (Expr.allIn_option.1 h x hx)

mutual

theorem Stmt.all_within (hq : ∀ h loc, h.kind ≠ .program → q h loc → q' h loc) :
    (s : Stmt) → s.outline.All q → s.outline.All q'
  | .function _ _ _ body _ _, h => by
    obtain ⟨hhead, hparams, hblock, hbody⟩ := Stmt.all_function.1 h
    have hwithin := Stmt.allIn_within hq body (Stmt.allIn_outlines.2 hbody)
    exact Stmt.all_function.2 ⟨hq _ _ nofun hhead,
      fun p hp => ⟨hq _ _ nofun (hparams p hp).1, trivial⟩, hq _ _ nofun hblock,
      Stmt.allIn_outlines.1 hwithin⟩
  | .var _ _ _ _, h => ⟨hq _ _ nofun h.1, Expr.allIn_option_within hq h.2⟩
  | .block body _, h => ⟨hq _ _ nofun h.1, Stmt.allIn_within hq body h.2⟩
  | .conditional cond body none _, h =>
    ⟨hq _ _ nofun h.1, Expr.all_within hq cond h.2.1, Stmt.all_within hq body h.2.2.1, trivial⟩
  | .conditional cond body (some other) _, h =>
    ⟨hq _ _ nofun h.1, Expr.all_within hq cond h.2.1, Stmt.all_within hq body h.2.2.1,
      Stmt.all_within hq other h.2.2.2.1, trivial⟩
  | .loop cond body _, h =>
    ⟨hq _ _ nofun h.1, Expr.all_within hq cond h.2.1, Stmt.all_within hq body h.2.2.1, trivial⟩
  | .returning _ _, h => ⟨hq _ _ nofun h.1, Expr.allIn_option_within hq h.2⟩
  | .expr e _, h => ⟨hq _ _ nofun h.1, Expr.all_within hq e h.2.1, trivial⟩

theorem Stmt.allIn_within (hq : ∀ h loc, h.kind ≠ .program → q h loc → q' h loc) :
    (ss : List Stmt) → Outline.AllIn q (Stmt.outlines ss) → Outline.AllIn q' (Stmt.outlines ss)
  | [], _ => trivial
  | s :: rest, h => ⟨Stmt.all_within hq s h.1, Stmt.allIn_within hq rest h.2⟩

end

end

section

variable {q : Head → Prop}

theorem Expr.all_foldedGroup {inner : Expr} (loc : Location) (hgroup : q .group)
    (h : inner.outline.All fun h _ => q h) :
    (Expr.foldedGroup inner loc).outline.All fun h _ => q h := by
  unfold Expr.foldedGroup
  split
  · exact ⟨h.1, trivial⟩
  · exact ⟨hgroup, h, trivial⟩

theorem Expr.all_foldedUnary (hq : ∀ l : Literal, l.IsNative → q (.literal l)) {op : UnaryOp}
    (hop : q (.unary op)) {operand : Expr} (loc : Location)
    (h : operand.outline.All fun h _ => q h) :
    (Expr.foldedUnary op operand loc).outline.All fun h _ => q h := by
  unfold Expr.foldedUnary
  split
  · exact ⟨hq _ (Literal.isNative_apply op _), trivial⟩
  · exact ⟨hop, h, trivial⟩

theorem Expr.all_foldedBinary (hq : ∀ l : Literal, l.IsNative → q (.literal l)) {op : BinaryOp}
    (hop : q (.binary op)) {left right : Expr} (loc : Location)
    (hleft : left.outline.All fun h _ => q h)
    (hright : right.outline.All fun h _ => q h) :
    (Expr.foldedBinary op left right loc).outline.All fun h _ => q h := by
  unfold Expr.foldedBinary
  split
  · split
    · rename_i hv
      exact ⟨hq _ (Literal.isNative_combine? hv), trivial⟩
    · exact ⟨hop, hleft, hright, trivial⟩
  · exact ⟨hop, hleft, hright, trivial⟩

mutual

theorem Expr.all_fold (hq : ∀ l : Literal, l.IsNative → q (.literal l)) :
    (e : Expr) → (e.outline.All fun h _ => q h) → e.fold.outline.All fun h _ => q h
  | .literal _ _, h | .var _ _, h => h
  | .group inner loc, h => Expr.all_foldedGroup loc h.1 (Expr.all_fold hq inner h.2.1)
  | .assign _ value _, h => ⟨h.1, h.2.1, Expr.all_fold hq value h.2.2.1, trivial⟩
  | .unary _ operand loc, h => Expr.all_foldedUnary hq h.1 loc (Expr.all_fold hq operand h.2.1)
  | .binary _ left right loc, h =>
    Expr.all_foldedBinary hq h.1 loc (Expr.all_fold hq left h.2.1) (Expr.all_fold hq right h.2.2.1)
  | .call callee args _, h => ⟨h.1, Expr.all_fold hq callee h.2.1, Expr.allIn_foldAll hq args h.2.2⟩

theorem Expr.allIn_foldAll (hq : ∀ l : Literal, l.IsNative → q (.literal l)) :
    (es : List Expr) → Outline.AllIn (fun h _ => q h) (Expr.outlines es) →
    Outline.AllIn (fun h _ => q h) (Expr.outlines (Expr.foldAll es))
  | [], _ => trivial
  | e :: rest, h => ⟨Expr.all_fold hq e h.1, Expr.allIn_foldAll hq rest h.2⟩

end

theorem Expr.allIn_foldOption (hq : ∀ l : Literal, l.IsNative → q (.literal l))
    {e : Option Expr} (h : Outline.AllIn (fun h _ => q h) (e.map Expr.outline).toList) :
    Outline.AllIn (fun h _ => q h) ((e.map Expr.fold).map Expr.outline).toList := by
  cases e with
  | none => trivial
  | some e => exact ⟨Expr.all_fold hq e h.1, trivial⟩

mutual

theorem Stmt.all_fold (hq : ∀ l : Literal, l.IsNative → q (.literal l)) :
    (s : Stmt) → (s.outline.All fun h _ => q h) → s.fold.outline.All fun h _ => q h
  | .function id params result body bodyLoc loc, h => by
    obtain ⟨hid, hparams, hblock, hbody⟩ := Stmt.all_function.1 h
    have hfolded := Stmt.allIn_foldAll hq body (Stmt.allIn_outlines.2 hbody)
    exact Stmt.all_function.2 ⟨hid, hparams, hblock, Stmt.allIn_outlines.1 hfolded⟩
  | .var _ _ _ _, h => ⟨h.1, Expr.allIn_foldOption hq h.2⟩
  | .block body _, h => ⟨h.1, Stmt.allIn_foldAll hq body h.2⟩
  | .conditional cond body none _, h =>
    ⟨h.1, Expr.all_fold hq cond h.2.1, Stmt.all_fold hq body h.2.2.1, trivial⟩
  | .conditional cond body (some other) _, h =>
    ⟨h.1, Expr.all_fold hq cond h.2.1, Stmt.all_fold hq body h.2.2.1,
      Stmt.all_fold hq other h.2.2.2.1, trivial⟩
  | .loop cond body _, h =>
    ⟨h.1, Expr.all_fold hq cond h.2.1, Stmt.all_fold hq body h.2.2.1, trivial⟩
  | .returning _ _, h => ⟨h.1, Expr.allIn_foldOption hq h.2⟩
  | .expr e _, h => ⟨h.1, Expr.all_fold hq e h.2.1, trivial⟩

theorem Stmt.allIn_foldAll (hq : ∀ l : Literal, l.IsNative → q (.literal l)) :
    (ss : List Stmt) → Outline.AllIn (fun h _ => q h) (Stmt.outlines ss) →
    Outline.AllIn (fun h _ => q h) (Stmt.outlines (Stmt.foldAll ss))
  | [], _ => trivial
  | s :: rest, h => ⟨Stmt.all_fold hq s h.1, Stmt.allIn_foldAll hq rest h.2⟩

end

end

section

variable {tokens : List Token} {table table' : SymbolTable}

theorem Stmt.Sound.valid {s : Stmt} (h : s.Sound tokens table) : s.Valid table :=
  Outline.All.mono (fun _ _ => Head.Sound.valid) _ h

theorem Stmt.Valid.mono {s : Stmt} (hkeeps : table.Keeps table') (h : s.Valid table) :
    s.Valid table' :=
  Outline.All.mono (fun _ _ => Head.Valid.mono hkeeps) _ h

/-- A node that names nothing and has no operator. -/
theorem Head.valid_of_plain {h : Head} (hid : h.id? = none)
    (hknown : ∀ code, h ≠ .binary (.unknown code)) : h.Valid table :=
  ⟨fun id hmem => by simp [hid] at hmem, hknown⟩

theorem Expr.Valid.unparen : {e : Expr} → e.Valid table → e.unparen.Valid table
  | .group inner _, h => Expr.Valid.unparen (e := inner) h.2.1
  | .literal _ _, h | .var _ _, h | .assign _ _ _, h | .unary _ _ _, h | .binary _ _ _ _, h
  | .call _ _ _, h => h

/-- Every statement of the program is valid. -/
def Program.Valid (table : SymbolTable) (p : Program) : Prop := ∀ s ∈ p.body, s.Valid table

theorem Program.Valid.fold {p : Program} (h : p.Valid table) : p.fold.Valid table := by
  have hliteral : ∀ l : Literal, l.IsNative → (Head.literal l).Valid table :=
    fun _ _ => Head.valid_of_plain rfl nofun
  exact Stmt.allIn_outlines.1 (Stmt.allIn_foldAll hliteral p.body (Stmt.allIn_outlines.2 h))

theorem Program.Valid.entries {p : Program} (h : p.Valid table) :
    ∀ e ∈ p.entries, e.head.Valid table := by
  have hall : p.outline.All fun h _ => h.Valid table :=
    ⟨Head.valid_of_plain rfl nofun, Stmt.allIn_outlines.2 h⟩
  exact Outline.All.entriesFrom _ hall _ _ _

/-- No entry names what is not in the table. -/
theorem Entry.breach?_eq_none {entries : List Entry} (h : ∀ e ∈ entries, e.head.Valid table) :
    Entry.breach? table entries = none := by
  unfold Entry.breach?
  rw [List.findSome?_eq_none_iff]
  intro id hid
  obtain ⟨e, he, hid⟩ := List.mem_filterMap.1 hid
  rw [if_pos ((h e he).entered id hid)]

end

end Ember
