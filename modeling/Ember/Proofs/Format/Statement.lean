import Ember.Proofs.Format.Expression

namespace Ember

namespace Fragment

theorem lexemes_datatype {type : Datatype} {k : Keyword} (h : type.keyword? = some k)
    (rest : List Fragment) : lexemes (datatype type :: rest) = .keyword k :: lexemes rest := by
  simp only [datatype, h, lexemes_keyword]

def isBlank : Fragment → Bool
  | space | newline _ => true
  | _ => false

theorem lexemes_blank {f : Fragment} (h : f.isBlank) (rest : List Fragment) :
    lexemes (f :: rest) = lexemes rest := by
  cases f with
  | space | newline => rfl
  | lexeme | verbatim => cases h

theorem exists_hanging (s : Stmt) (indent : Nat) (print : Nat → List Fragment) :
    ∃ f i, f.isBlank ∧ hanging s indent print = f :: print i := by
  unfold hanging
  split
  · exact ⟨space, indent, rfl, rfl⟩
  · exact ⟨newline (indent + 1), indent + 1, rfl, rfl⟩

theorem exists_alternative (s : Stmt) (indent : Nat) (print : Nat → List Fragment) :
    ∃ f i, f.isBlank ∧ alternative s indent print = f :: print i := by
  unfold alternative
  split
  · exact ⟨space, indent, rfl, rfl⟩
  · exact exists_hanging s indent print

theorem exists_beforeAlternative (s : Stmt) (indent : Nat) :
    ∃ f, f.isBlank ∧ beforeAlternative s indent = [f, keyword .elseKw] := by
  unfold beforeAlternative
  split
  · exact ⟨space, rfl, rfl⟩
  · exact ⟨newline indent, rfl, rfl⟩

theorem lexemes_braces (indent : Nat) (lines : List (List Fragment)) :
    lexemes (braces indent lines) =
      .mark .braceOpen :: (lines.flatMap lexemes ++ [.mark .braceClose]) := by
  have hlines : lexemes (lines.flatMap (newline (indent + 1) :: ·)) = lines.flatMap lexemes := by
    induction lines with
    | nil => rfl
    | cons line rest ih => simp [ih]
  cases lines with
  | nil => rfl
  | cons line rest =>
    simp only [braces, List.isEmpty_cons, Bool.false_eq_true, if_false, List.cons_append,
      lexemes_mark, lexemes_append, hlines, lexemes_newline, lexemes_nil]

end Fragment

namespace Grammar

theorem exists_typeName {type : Datatype} {k : Keyword} (h : type.keyword? = some k)
    (loc : Location) : ∃ n : TypeName, n.token = ⟨.keyword k, loc⟩ ∧ n.type = type := by
  have hspelled : k.datatype? = some type := by
    cases type <;> cases h <;> rfl
  exact ⟨⟨k, type, loc, mem_typeNames.2 hspelled⟩, rfl, rfl⟩

/-- Two trees with the same names, up to the ids of these and up to their places. -/
def Role.Alike (name name' : Int → String) : (r : Role) → r.Tree → r.Tree → Prop
  | .statement, s, s' => Stmt.Alike (SameText name name') Anywhere s s'
  | .entry, ss, ss' | .entries, ss, ss' => Stmt.AlikeAll (SameText name name') Anywhere ss ss'

/-- In every table that keeps the names of the derivation, its tree is the given one. -/
def Clause.Gives (name : Int → String) {r : Role} (c : Clause r) (x : r.Tree) : Prop :=
  ∀ t {t' : SymbolTable}, (c.build t).2.Keeps t' → r.Alike t'.nameOf name (c.build t).1 x

/-- Tokens of the given lexemes have a derivation of the given tree, wherever they stand. In it
every `else` belongs to the nearest open conditional. -/
def DerivesClause (name : Int → String) (r : Role) (ls : List Lexeme) (x : r.Tree)
    (isOpen : Bool) : Prop :=
  ∀ ts : List Token, ts.map (·.lexeme) = ls →
    ∃ c : Clause r, c.tokens = ts ∧ c.Gives name x ∧ c.NearestElse ∧ c.isOpen = isOpen

namespace DerivesClause

variable {name : Int → String} {ls ls' ls'' : List Lexeme} {x : Expr} {y z : Stmt}
variable {xs ys : List Stmt} {isOpen : Bool}

theorem block (h : DerivesClause name .entries ls xs false) (place : Location) :
    DerivesClause name .statement (.mark .braceOpen :: (ls ++ [.mark .braceClose]))
      (.block xs place) false := by
  intro ts hts
  obtain ⟨opening, ts, rfl, htail⟩ := exists_of_map_cons hts
  obtain ⟨ts₁, ts₂, rfl, hbody, hclose⟩ := List.map_eq_append_iff.1 htail
  obtain ⟨closing, ts₂, rfl, hnil⟩ := exists_of_map_cons hclose
  obtain ⟨body, rfl, hxs, helse, _⟩ := h ts₁ hbody
  rw [List.map_eq_nil_iff.1 hnil]
  exact ⟨.block opening body closing, rfl, fun t _ hkeeps => .block (hxs t hkeeps) trivial,
    helse, rfl⟩

theorem ifThen (hcond : Derives name .expression ls x)
    (h : DerivesClause name .statement ls' y isOpen) (place : Location) :
    DerivesClause name .statement
      (.keyword .ifKw :: .mark .parenOpen :: (ls ++ .mark .parenClose :: ls'))
      (.conditional x y none place) true := by
  intro ts hts
  obtain ⟨loc, ts, rfl, hopen⟩ := exists_of_map_cons hts
  obtain ⟨opening, ts, rfl, htail⟩ := exists_of_map_cons hopen
  obtain ⟨ts₁, ts₂, rfl, hinner, hclose⟩ := List.map_eq_append_iff.1 htail
  obtain ⟨closing, ts₂, rfl, hbody⟩ := exists_of_map_cons hclose
  obtain ⟨cond, rfl, hx⟩ := hcond ts₁ hinner
  obtain ⟨body, rfl, hy, helse, _⟩ := h ts₂ hbody
  exact ⟨.ifThen loc opening cond closing body, rfl, fun t _ hkeeps =>
    .ifThen (hx t ((body.keeps_build _).trans hkeeps)) (hy _ hkeeps) trivial, helse, rfl⟩

/-- An `else` stands only behind a statement that is not open. -/
theorem ifElse (hcond : Derives name .expression ls x)
    (h : DerivesClause name .statement ls' y false)
    (hother : DerivesClause name .statement ls'' z isOpen) (place : Location) :
    DerivesClause name .statement
      (.keyword .ifKw :: .mark .parenOpen ::
        (ls ++ .mark .parenClose :: (ls' ++ .keyword .elseKw :: ls'')))
      (.conditional x y (some z) place) isOpen := by
  intro ts hts
  obtain ⟨loc, ts, rfl, hopen⟩ := exists_of_map_cons hts
  obtain ⟨opening, ts, rfl, htail⟩ := exists_of_map_cons hopen
  obtain ⟨ts₁, ts₂, rfl, hinner, hclose⟩ := List.map_eq_append_iff.1 htail
  obtain ⟨closing, ts₂, rfl, hbranches⟩ := exists_of_map_cons hclose
  obtain ⟨ts₂, ts₃, rfl, hbody, helseTail⟩ := List.map_eq_append_iff.1 hbranches
  obtain ⟨elseLoc, ts₃, rfl, hlast⟩ := exists_of_map_cons helseTail
  obtain ⟨cond, rfl, hx⟩ := hcond ts₁ hinner
  obtain ⟨body, rfl, hy, helse, hclosed⟩ := h ts₂ hbody
  obtain ⟨other, rfl, hz, helse', rfl⟩ := hother ts₃ hlast
  refine ⟨.ifElse loc opening cond closing body elseLoc other, rfl, fun t _ hkeeps => ?_,
    ⟨hclosed, helse, helse'⟩, rfl⟩
  have hkeepsBody := (other.keeps_build _).trans hkeeps
  exact .ifElse (hx t ((body.keeps_build _).trans hkeepsBody)) (hy _ hkeepsBody) (hz _ hkeeps)
    trivial

theorem whileLoop (hcond : Derives name .expression ls x)
    (h : DerivesClause name .statement ls' y isOpen) (place : Location) :
    DerivesClause name .statement
      (.keyword .whileKw :: .mark .parenOpen :: (ls ++ .mark .parenClose :: ls'))
      (.loop x y place) isOpen := by
  intro ts hts
  obtain ⟨loc, ts, rfl, hopen⟩ := exists_of_map_cons hts
  obtain ⟨opening, ts, rfl, htail⟩ := exists_of_map_cons hopen
  obtain ⟨ts₁, ts₂, rfl, hinner, hclose⟩ := List.map_eq_append_iff.1 htail
  obtain ⟨closing, ts₂, rfl, hbody⟩ := exists_of_map_cons hclose
  obtain ⟨cond, rfl, hx⟩ := hcond ts₁ hinner
  obtain ⟨body, rfl, hy, helse, rfl⟩ := h ts₂ hbody
  exact ⟨.whileLoop loc opening cond closing body, rfl, fun t _ hkeeps =>
    .loop (hx t ((body.keeps_build _).trans hkeeps)) (hy _ hkeeps) trivial, helse, rfl⟩

theorem returnNothing (place : Location) :
    DerivesClause name .statement [.keyword .returnKw, .mark .semicolon] (.returning none place)
      false := by
  intro ts hts
  obtain ⟨loc, ts, rfl, hend⟩ := exists_of_map_cons hts
  obtain ⟨semicolon, ts, rfl, hnil⟩ := exists_of_map_cons hend
  rw [List.map_eq_nil_iff.1 hnil]
  exact ⟨.returning loc none semicolon, rfl, fun _ _ _ => .returning .none trivial, trivial, rfl⟩

theorem returnValue (h : Derives name .expression ls x) (place : Location) :
    DerivesClause name .statement (.keyword .returnKw :: (ls ++ [.mark .semicolon]))
      (.returning (some x) place) false := by
  intro ts hts
  obtain ⟨loc, ts, rfl, htail⟩ := exists_of_map_cons hts
  obtain ⟨ts₁, ts₂, rfl, hvalue, hend⟩ := List.map_eq_append_iff.1 htail
  obtain ⟨semicolon, ts₂, rfl, hnil⟩ := exists_of_map_cons hend
  obtain ⟨e, rfl, he⟩ := h ts₁ hvalue
  rw [List.map_eq_nil_iff.1 hnil]
  exact ⟨.returning loc (some e) semicolon, rfl,
    fun t _ hkeeps => .returning (.some (he t hkeeps)) trivial, trivial, rfl⟩

theorem expr (h : Derives name .expression ls x) (place : Location) :
    DerivesClause name .statement (ls ++ [.mark .semicolon]) (.expr x place) false := by
  intro ts hts
  obtain ⟨ts₁, ts₂, rfl, hexpr, hend⟩ := List.map_eq_append_iff.1 hts
  obtain ⟨semicolon, ts₂, rfl, hnil⟩ := exists_of_map_cons hend
  obtain ⟨e, rfl, he⟩ := h ts₁ hexpr
  rw [List.map_eq_nil_iff.1 hnil]
  exact ⟨.expr e semicolon, rfl, fun t _ hkeeps => .expr (he t hkeeps) trivial, trivial, rfl⟩

theorem uninitialized {type : Datatype} {k : Keyword} (htype : type.keyword? = some k)
    (id : Int) (place : Location) :
    DerivesClause name .entry [.keyword k, .identifier (name id), .mark .semicolon]
      [.var id type none place] false := by
  intro ts hts
  obtain ⟨loc, ts, rfl, hname⟩ := exists_of_map_cons hts
  obtain ⟨nameLoc, ts, rfl, hend⟩ := exists_of_map_cons hname
  obtain ⟨semicolon, ts, rfl, hnil⟩ := exists_of_map_cons hend
  obtain ⟨n, htoken, rfl⟩ := exists_typeName htype loc
  rw [List.map_eq_nil_iff.1 hnil, ← htoken]
  exact ⟨.vars ⟨n, .one ⟨name id, nameLoc, none⟩⟩ semicolon, rfl,
    fun _ _ hkeeps => .cons (.var hkeeps.nameOf_add .none trivial) .nil, trivial, rfl⟩

theorem initialized {type : Datatype} {k : Keyword} (htype : type.keyword? = some k)
    (id : Int) (h : Derives name .expression ls x) (place : Location) :
    DerivesClause name .entry
      (.keyword k :: .identifier (name id) :: .mark .assign :: (ls ++ [.mark .semicolon]))
      [.var id type (some x) place] false := by
  intro ts hts
  obtain ⟨loc, ts, rfl, hname⟩ := exists_of_map_cons hts
  obtain ⟨nameLoc, ts, rfl, hequal⟩ := exists_of_map_cons hname
  obtain ⟨equal, ts, rfl, htail⟩ := exists_of_map_cons hequal
  obtain ⟨ts₁, ts₂, rfl, hinit, hend⟩ := List.map_eq_append_iff.1 htail
  obtain ⟨semicolon, ts₂, rfl, hnil⟩ := exists_of_map_cons hend
  obtain ⟨n, htoken, rfl⟩ := exists_typeName htype loc
  obtain ⟨e, rfl, he⟩ := h ts₁ hinit
  rw [List.map_eq_nil_iff.1 hnil, ← htoken]
  refine ⟨.vars ⟨n, .one ⟨name id, nameLoc, some (equal, e)⟩⟩ semicolon, rfl,
    fun t _ hkeeps => ?_, trivial, rfl⟩
  have hname := ((e.keeps_build _).trans hkeeps).nameOf_add
  exact .cons (.var hname (.some (he _ hkeeps)) trivial) .nil

theorem single (h : DerivesClause name .statement ls y isOpen) :
    DerivesClause name .entry ls [y] false := by
  intro ts hts
  obtain ⟨c, rfl, hy, helse, _⟩ := h ts hts
  exact ⟨.single c, rfl, fun t _ hkeeps => .cons (hy t hkeeps) .nil, helse, rfl⟩

theorem nothing : DerivesClause name .entries [] [] false := by
  intro ts hts
  rw [List.map_eq_nil_iff.1 hts]
  exact ⟨.nothing, rfl, fun _ _ _ => .nil, trivial, rfl⟩

theorem another (h : DerivesClause name .entries ls xs false)
    (h' : DerivesClause name .entry ls' ys false) :
    DerivesClause name .entries (ls ++ ls') (xs ++ ys) false := by
  intro ts hts
  obtain ⟨ts₁, ts₂, rfl, hbefore, hlast⟩ := List.map_eq_append_iff.1 hts
  obtain ⟨before, rfl, hxs, helse, _⟩ := h ts₁ hbefore
  obtain ⟨last, rfl, hys, helse', _⟩ := h' ts₂ hlast
  exact ⟨.another before last, rfl, fun t _ hkeeps =>
    (hxs t ((last.keeps_build _).trans hkeeps)).append (hys _ hkeeps), ⟨helse, helse'⟩, rfl⟩

end DerivesClause

end Grammar

namespace Stmt

open Grammar Fragment

theorem derives_var {name : Int → String} {id : Int} {type : Datatype} {init : Option Expr}
    {loc : Location} (h : (Stmt.var id type init loc).Printable name) (indent : Nat) :
    DerivesClause name .entry (lexemes ((Stmt.var id type init loc).fragments name indent))
      [(Stmt.var id type init loc).bracketed] false := by
  obtain ⟨_, htype, hinit⟩ := h
  obtain ⟨k, hk⟩ := Option.isSome_iff_exists.1 htype
  cases init with
  | none =>
    simpa [Stmt.fragments, bracketed, lexemes_datatype hk] using
      @DerivesClause.uninitialized name type k hk id loc
  | some e =>
    have he := (e.reads name (hinit e rfl)).expression
    simpa [Stmt.fragments, bracketed, lexemes_datatype hk] using
      DerivesClause.initialized hk id he loc

/-- What stands in a block is a statement or a declaration of one variable. -/
theorem entry_of_statement {name : Int → String} {s : Stmt} (h : s.Printable name)
    (hfunction : s.isFunction = false) (indent : Nat)
    (hstatement : s.isDeclaration = false →
      DerivesClause name .statement (lexemes (s.fragments name indent)) s.bracketed s.isOpen) :
    DerivesClause name .entry (lexemes (s.fragments name indent)) [s.bracketed] false := by
  cases s with
  | var => exact derives_var h indent
  | function => cases hfunction
  | block | conditional | loop | returning | expr => exact (hstatement rfl).single

mutual

/-- Printed statements are derivations of the statement with the printer's parentheses, as open
as the statement. -/
theorem reads (name : Int → String) : (s : Stmt) → s.Printable name → s.isDeclaration = false →
    ∀ indent,
      DerivesClause name .statement (lexemes (s.fragments name indent)) s.bracketed s.isOpen
  | .function .., _, hnot, _ => by cases hnot
  | .var .., _, hnot, _ => by cases hnot
  | .block body loc, h, _, indent => by
    have hbody := readsAll name body h (indent + 1) .nothing
    simpa [Stmt.fragments, bracketed, Stmt.isOpen, lexemes_braces] using hbody.block loc
  | .conditional cond body none loc, ⟨hcond, hstatement, hbody⟩, _, indent => by
    obtain ⟨f, i, hf, hbodyRow⟩ := exists_hanging body indent (fun i => body.fragments name i)
    have hderives := DerivesClause.ifThen (cond.reads name hcond).expression
      (reads name body hbody hstatement i) loc
    simpa [Stmt.fragments, bracketed, Stmt.isOpen, hbodyRow, lexemes_blank hf] using hderives
  | .conditional cond body (some other) loc,
      ⟨hcond, ⟨hstatement, hbody⟩, hclosed, hstatement', hother⟩, _, indent => by
    obtain ⟨f, i, hf, hbodyRow⟩ := exists_hanging body indent (fun i => body.fragments name i)
    obtain ⟨f', hf', helseRow⟩ := exists_beforeAlternative body indent
    obtain ⟨f'', j, hf'', hotherRow⟩ :=
      exists_alternative other indent (fun i => other.fragments name i)
    have hbody' := reads name body hbody hstatement i
    rw [hclosed] at hbody'
    have hderives := DerivesClause.ifElse (cond.reads name hcond).expression hbody'
      (reads name other hother hstatement' j) loc
    simpa [Stmt.fragments, bracketed, Stmt.isOpen, hbodyRow, helseRow, hotherRow,
      lexemes_blank hf, lexemes_blank hf', lexemes_blank hf''] using hderives
  | .loop cond body loc, ⟨hcond, hstatement, hbody⟩, _, indent => by
    obtain ⟨f, i, hf, hbodyRow⟩ := exists_hanging body indent (fun i => body.fragments name i)
    have hderives := DerivesClause.whileLoop (cond.reads name hcond).expression
      (reads name body hbody hstatement i) loc
    simpa [Stmt.fragments, bracketed, Stmt.isOpen, hbodyRow, lexemes_blank hf] using hderives
  | .returning none loc, _, _, _ => DerivesClause.returnNothing loc
  | .returning (some e) loc, h, _, _ => by
    have hderives := DerivesClause.returnValue (e.reads name (h e rfl)).expression loc
    simpa [Stmt.fragments, bracketed, Stmt.isOpen] using hderives
  | .expr e loc, h, _, _ => by
    have hderives := DerivesClause.expr (e.reads name h).expression loc
    simpa [Stmt.fragments, bracketed, Stmt.isOpen] using hderives

/-- The entries are derived from the left, so that the ones before are already read. -/
theorem readsAll (name : Int → String) : (ss : List Stmt) → Stmt.PrintableAll name ss →
    ∀ indent {ls : List Lexeme} {xs : List Stmt}, DerivesClause name .entries ls xs false →
      DerivesClause name .entries (ls ++ (Stmt.fragmentLists name ss indent).flatMap lexemes)
        (xs ++ Stmt.bracketedAll ss) false
  | [], _, _, _, _, h => by simpa [Stmt.fragmentLists, bracketedAll] using h
  | s :: rest, ⟨hfunction, hs, hrest⟩, indent, ls, xs, h => by
    have hentry := entry_of_statement hs hfunction indent
      fun hdeclaration => reads name s hs hdeclaration indent
    have hderives := readsAll name rest hrest indent (h.another hentry)
    simpa [Stmt.fragmentLists, bracketedAll] using hderives

end

theorem derives_entry {name : Int → String} {s : Stmt} (h : s.Printable name)
    (hfunction : s.isFunction = false) (indent : Nat) :
    DerivesClause name .entry (lexemes (s.fragments name indent)) [s.bracketed] false :=
  entry_of_statement h hfunction indent fun hdeclaration => reads name s h hdeclaration indent

end Stmt

end Ember
