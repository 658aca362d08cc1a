import Ember.Proofs.Format.Limit
import Ember.Proofs.Outline.Links

namespace Ember

open Ember.Expr (Trails)

namespace Parser

variable {α β : Type} {q : α → Prop} {r : β → Prop} {p : Parser α} {operand expr : Parser Expr}
  {stmt : Parser Stmt} {n : Nat}

/-- Whatever the parser gives has the property. -/
def Makes (q : α → Prop) (p : Parser α) : Prop := ∀ s a s', p s = .ok a s' → q a

/-- The parser gives expressions within the bound. -/
abbrev MakesExpr (n : Nat) (p : Parser Expr) : Prop := Makes (fun e => e.outline.Within n) p

/-- The parser gives statements within the bound. -/
abbrev MakesStmt (n : Nat) (p : Parser Stmt) : Prop := Makes (fun s => s.outline.Within n) p

/-- The parser gives lists of statements within the bound. -/
abbrev MakesStmts (n : Nat) (p : Parser (List Stmt)) : Prop :=
  Makes (fun ss => ∀ s ∈ ss, s.outline.Within n) p

namespace Makes

theorem pure {a : α} (h : q a) : Makes q (Pure.pure a : Parser α) := by
  intro s b s' hrun
  cases hrun
  exact h

theorem fail (code : Code) (loc : Location) (args : List (String × Argument)) :
    Makes q (fail code loc args : Parser α) := by
  intro s a s' hrun
  cases hrun

theorem bind {f : α → Parser β} (hp : Makes q p) (hf : ∀ a, q a → Makes r (f a)) :
    Makes r (p >>= f) := by
  intro s b s'' hrun
  cases hs : p s with
  | ok a s' =>
    rw [bind_of_ok hs] at hrun
    exact hf a (hp s a s' hs) s' b s'' hrun
  | error d s' =>
    rw [bind_of_error hs] at hrun
    cases hrun

/-- What comes before does not matter. -/
theorem skip {f : α → Parser β} (hf : ∀ a, Makes r (f a)) : Makes r (p >>= f) :=
  bind (fun _ _ _ _ => trivial : Makes (fun _ => True) p) fun a _ => hf a

theorem mono {o : α → Prop} (hp : Makes q p) (h : ∀ a, q a → o a) : Makes o p :=
  fun s a s' hrun => h a (hp s a s' hrun)

theorem map (f : α → β) (hp : Makes q p) (h : ∀ a, q a → r (f a)) : Makes r (f <$> p) := by
  rw [map_eq_pure_bind]
  exact hp.bind fun a ha => pure (h a ha)

theorem ite {c : Prop} [Decidable c] {other : Parser α} (hp : Makes q p) (hother : Makes q other) :
    Makes q (if c then p else other) := by
  split
  · exact hp
  · exact hother

theorem attempt (hp : Makes q p) : Makes (fun r => ∀ a, r = .ok a → q a) (attempt p) := by
  intro s r s' hrun a hr
  subst hr
  unfold Parser.attempt at hrun
  cases hs : p s with
  | ok b s₁ =>
    rw [hs] at hrun
    cases hrun
    exact hp s _ _ hs
  | error d s₁ =>
    rw [hs] at hrun
    cases hrun

theorem iterateWithin {step : α → Parser (Option α)}
    (h : ∀ a, q a → Makes (fun b => ∀ a' ∈ b, q a') (step a)) :
    ∀ (room : List Token) (a : α), q a → Makes q (iterateWithin step room a)
  | [], _, ha => pure ha
  | _ :: room, a, ha => by
    refine (h a ha).bind fun b hb => ?_
    cases b with
    | none => exact pure ha
    | some b => exact iterateWithin h room b (hb b rfl)

theorem iterate {step : α → Parser (Option α)}
    (h : ∀ a, q a → Makes (fun b => ∀ a' ∈ b, q a') (step a)) {a : α} (ha : q a) :
    Makes q (iterate step a) :=
  skip fun s => iterateWithin h s.ahead a ha

theorem none_step : Makes (fun b => ∀ a ∈ b, q a) (Pure.pure none : Parser (Option α)) :=
  pure fun _ h => by cases h

theorem some_step {a : α} (h : q a) :
    Makes (fun b => ∀ a ∈ b, q a) (Pure.pure (some a) : Parser (Option α)) :=
  pure fun _ ha => by
    cases ha
    exact h

theorem commaSeparated (hp : Makes q p) :
    Makes (fun as => ∀ a ∈ as, q a) (commaSeparated p) := by
  rw [commaSeparated_eq]
  refine hp.bind fun first hfirst =>
    iterate (fun as has => ?_) (List.forall_mem_singleton.2 hfirst)
  refine skip fun _ => ite (hp.bind fun a ha => some_step ?_) none_step
  exact List.forall_mem_append.2 ⟨has, List.forall_mem_singleton.2 ha⟩

theorem closedBy (l : Lexeme) {absent : Location → α} (habsent : ∀ loc, q (absent loc))
    (hp : Makes q p) : Makes q (closedBy l absent p) :=
  skip fun t => ite ((pure (habsent t.loc)).bind fun _ ha => skip fun _ => pure ha)
    (hp.bind fun _ ha => skip fun _ => pure ha)

end Makes

namespace MakesExpr

/-- Parentheses are one deeper than what is in them. -/
theorem primary (h : MakesExpr n expr) : MakesExpr (n + 1) (primary expr) := by
  refine .skip fun t => ?_
  split
  · exact .skip fun _ => .skip fun id => .pure (.leaf _ (.var id) t.loc)
  · exact .skip fun _ => .pure (.leaf _ (.literal (.bool true)) t.loc)
  · exact .skip fun _ => .pure (.leaf _ (.literal (.bool false)) t.loc)
  · split
    · rename_i value _
      exact .skip fun _ => .pure (.leaf _ (.literal value) t.loc)
    · exact .fail _ _ _
  · exact .skip fun _ => h.bind fun inner hinner => .skip fun _ => .pure (Expr.within_group hinner)
  · exact .fail _ _ _
  · exact .fail _ _ _

theorem call (h : MakesExpr n expr) : MakesExpr (n + 1) (call expr) := by
  rw [call_eq]
  refine (primary h).bind fun first hfirst => .iterate (fun callee hcallee => ?_) hfirst
  refine .skip fun _ => .ite (.bind (q := fun es => ∀ e ∈ es, e.outline.Within n) ?_
    fun args hargs => .some_step (Expr.within_call hcallee hargs)) .none_step
  rw [arguments_eq]
  exact .closedBy _ (fun _ => List.forall_mem_nil _) (Makes.commaSeparated h)

/-- Operands joined by operators of one precedence. -/
theorem leftAssociative (precedence : Nat) (h : MakesExpr n operand) :
    MakesExpr (n + 1) (leftAssociative precedence operand) := by
  rw [leftAssociative_eq]
  refine h.bind fun first hfirst =>
    .iterate (fun left hleft => ?_) (hfirst.mono (Nat.le_succ n))
  refine .skip fun t => ?_
  split
  · refine .ite (.skip fun _ => h.bind fun right hright => .some_step ?_) .none_step
    exact Expr.within_binary hleft (.inr hright)
  · exact .none_step

theorem binary (h : MakesExpr n operand) : MakesExpr (n + 4) (binary operand) :=
  leftAssociative 1 (leftAssociative 2 (leftAssociative 3 (leftAssociative 4 h)))

theorem trails (h : MakesExpr n (Parser.binary operand)) :
    ∀ room, Makes (Trails n) (assignmentWithin operand room)
  | [] => Makes.mono h fun _ => Expr.trails_of_within
  | _ :: room => by
    refine h.bind fun target htarget => .skip fun t => ?_
    split
    · exact .pure (Expr.trails_of_within htarget)
    · exact .skip fun _ => (trails h room).bind fun value hvalue =>
        .pure (Expr.trails_assign _ _ htarget hvalue)

theorem expressionOver (h : MakesExpr n operand) : MakesExpr (n + 6) (expressionOver operand) :=
  .skip fun s => (trails (binary h) s.ahead).mono fun _ => Trails.within

theorem unary : ∀ room, MakesExpr (7 * room) (unary room)
  | 0 => .skip fun _ => .fail _ _ _
  | room + 1 => by
    refine .skip fun t => ?_
    split
    · refine .skip fun _ => (unary room).bind fun operand hoperand => .pure ?_
      exact (Expr.within_unary hoperand).mono (by omega)
    · exact call (expressionOver (unary room))

theorem expression (room : Nat) : MakesExpr (7 * room + 6) (expression room) :=
  expressionOver (unary room)

end MakesExpr

section

variable {type : Datatype} {loc : Location}

theorem makes_variableDecls (h : MakesExpr n expr) : MakesStmts (n + 1) (variableDecls expr) := by
  refine .skip fun type => .bind (Makes.commaSeparated (q := fun s => s.outline.Within (n + 1)) ?_)
    fun vars hvars => .skip fun _ => .pure hvars
  refine .skip fun _ => .skip fun _ => .skip fun _ => .ite
    (h.bind fun init hinit => .pure ?_) (.pure ?_)
  · exact Stmt.within_var fun e he => by cases he; exact hinit
  · exact Stmt.within_var fun e he => by cases he

theorem makes_exprStmt (h : MakesExpr n expr) : MakesStmt (n + 1) (exprStmt expr) :=
  .skip fun _ => h.bind fun _ he => .pure (Stmt.within_expr he)

theorem makes_entry (h : MakesExpr n expr) (hs : MakesStmt (n + 1) stmt) :
    MakesStmts (n + 1) (entry expr stmt) :=
  .skip fun _ => .ite (makes_variableDecls h)
    (hs.bind fun _ hstmt => .pure (List.forall_mem_singleton.2 hstmt))

theorem makes_entryStep (h : MakesExpr n expr) (hs : MakesStmt (n + 1) stmt) {body : List Stmt}
    (hbody : ∀ s ∈ body, s.outline.Within (n + 1)) :
    Makes (fun b => ∀ ss ∈ b, ∀ s ∈ ss, s.outline.Within (n + 1)) (entryStep expr stmt body) := by
  refine .skip fun _ => .ite .none_step ((makes_entry h hs).attempt.bind fun r hr => ?_)
  cases r with
  | ok stmts => exact .some_step (List.forall_mem_append.2 ⟨hbody, hr stmts rfl⟩)
  | error d => exact .skip fun _ => .skip fun _ => .some_step hbody

theorem makes_block (h : MakesExpr n expr) (hs : MakesStmt (n + 1) stmt) :
    Makes (fun b => ∀ s ∈ b.1, s.outline.Within (n + 1)) (block expr stmt) := by
  rw [block_eq]
  refine .skip fun loc => .bind (q := fun ss => ∀ s ∈ ss, s.outline.Within (n + 1)) ?_
    fun body hbody => .skip fun _ => .pure hbody
  exact .iterate (fun _ => makes_entryStep h hs) (List.forall_mem_nil _)

theorem makes_condition (h : MakesExpr n expr) : MakesExpr n (condition expr) :=
  .skip fun _ => h.bind fun _ hcond => .skip fun _ => .pure hcond

namespace MakesStmt

theorem conditional (h : MakesExpr n expr) (hs : MakesStmt (n + 1) stmt) :
    MakesStmt (n + 2) (conditional expr stmt loc) := by
  refine .skip fun _ => (makes_condition h).bind fun cond hcond => hs.bind fun body hbody => ?_
  have hcond := hcond.mono (Nat.le_succ n)
  refine .skip fun _ => .ite (hs.bind fun other hother => .pure ?_) (.pure ?_)
  · exact Stmt.within_conditional hcond hbody fun s hs => by cases hs; exact hother
  · exact Stmt.within_conditional hcond hbody fun s hs => by cases hs

theorem whileLoop (h : MakesExpr n expr) (hs : MakesStmt (n + 1) stmt) :
    MakesStmt (n + 2) (whileLoop expr stmt loc) :=
  .skip fun _ => (makes_condition h).bind fun _ hcond => hs.bind fun _ hbody =>
    .pure (Stmt.within_loop (hcond.mono (Nat.le_succ n)) hbody)

theorem doLoop (h : MakesExpr n expr) (hs : MakesStmt (n + 1) stmt) :
    MakesStmt (n + 3) (doLoop expr stmt loc) := by
  refine .skip fun _ => hs.bind fun body hbody => .skip fun _ =>
    (makes_condition h).bind fun cond hcond => .skip fun _ => .pure (Stmt.within_block ?_)
  exact List.forall_mem_cons.2 ⟨hbody.mono (Nat.le_succ _), List.forall_mem_singleton.2
    (Stmt.within_loop (hcond.mono (Nat.le_succ n)) hbody)⟩

theorem forInit (h : MakesExpr n expr) : MakesStmts (n + 1) (forInit expr) :=
  .skip fun _ => .ite (.pure (List.forall_mem_nil _)) (.skip fun _ => .ite (makes_variableDecls h)
    ((makes_exprStmt h).bind fun _ hinit => .skip fun _ =>
      .pure (List.forall_mem_singleton.2 hinit)))

theorem forCondition (h : MakesExpr n expr) : MakesExpr n (forCondition expr) := by
  rw [forCondition_eq]
  exact .closedBy _ (fun loc => .leaf n (.literal (.bool true)) loc) h

theorem forStep (h : MakesExpr n expr) :
    Makes (fun step => ∀ s ∈ step, s.outline.Within (n + 1)) (forStep expr) := by
  rw [forStep_eq]
  refine .closedBy _ (fun loc s hs => by cases hs) ((makes_exprStmt h).map some fun s hs s' hs' => ?_)
  cases hs'
  exact hs

/-- The body of a loop of three clauses stands in a block, in the loop, and in a block again. -/
theorem forLoop (h : MakesExpr n expr) (hs : MakesStmt (n + 1) stmt) :
    MakesStmt (n + 4) (forLoop expr stmt loc) := by
  refine .skip fun _ => .skip fun _ => (forInit h).bind fun init hinit =>
    (forCondition h).bind fun cond hcond => (forStep h).bind fun step hstep =>
      hs.bind fun body hbody => .pure (Stmt.within_block ?_)
  refine List.forall_mem_append.2 ⟨fun s hs => (hinit s hs).mono (by omega), ?_⟩
  exact List.forall_mem_singleton.2
    (Stmt.within_loop (hcond.mono (by omega)) (Stmt.within_withStep hbody hstep))

theorem returning (h : MakesExpr n expr) : MakesStmt (n + 1) (returning expr loc) := by
  rw [returning_eq]
  refine .skip fun _ => .bind (q := fun e => ∀ e' ∈ e, e'.outline.Within n)
    (.closedBy _ (fun loc e he => by cases he) (h.map some fun e he e' he' => ?_))
    fun value hvalue => .pure (Stmt.within_returning hvalue)
  cases he'
  exact he

theorem statement : ∀ room, MakesStmt (7 * room + 7) (statement room)
  | 0 => .skip fun _ => .fail _ _ _
  | room + 1 => by
    have he := MakesExpr.expression room
    have hs : MakesStmt (7 * room + 6 + 1) (Parser.statement room) := statement room
    -- The room of a statement is enough for the deepest form, a loop of three clauses.
    have fit {k : Nat} {p : Parser Stmt} (hk : k ≤ 4) (hp : MakesStmt (7 * room + 6 + k) p) :
        MakesStmt (7 * (room + 1) + 7) p :=
      hp.mono fun _ hwithin => hwithin.mono (by omega)
    refine .skip fun t => ?_
    split
    · exact fit (k := 2) (by decide) ((makes_block he hs).bind fun b hb =>
        .pure (Stmt.within_block hb))
    · exact fit (by decide) (conditional he hs)
    · exact fit (by decide) (doLoop he hs)
    · exact fit (by decide) (forLoop he hs)
    · exact fit (by decide) (whileLoop he hs)
    · exact fit (by decide) (returning he)
    · exact fit (k := 1) (by decide) ((makes_exprStmt he).bind fun s hstmt => .skip fun _ =>
        .pure hstmt)

end MakesStmt

end

theorem makes_function (room : Nat) : MakesStmt (7 * room + 9) (function room) := by
  refine .skip fun _ => .skip fun _ => .skip fun _ => .skip fun _ => .skip fun _ => .skip fun _ =>
    .skip fun _ => .skip fun _ => ?_
  exact (makes_block (MakesExpr.expression room) (MakesStmt.statement room)).bind fun b hb =>
    .pure (Stmt.within_function hb)

theorem makes_declaration (room : Nat) : MakesStmts (7 * room + 9) (declaration room) := by
  refine .skip fun _ => .ite ((makes_function room).bind fun f hf =>
    .pure (List.forall_mem_singleton.2 hf)) ?_
  exact (makes_entry (MakesExpr.expression room) (MakesStmt.statement room)).mono fun ss hss s hs =>
    (hss s hs).mono (by omega)

theorem makes_declarationStep (room : Nat) {body : List Stmt}
    (hbody : ∀ s ∈ body, s.outline.Within (7 * room + 9)) :
    Makes (fun b => ∀ ss ∈ b, ∀ s ∈ ss, s.outline.Within (7 * room + 9))
      (declarationStep room body) := by
  refine .skip fun _ => .ite .none_step ((makes_declaration room).attempt.bind fun r hr => ?_)
  cases r with
  | ok stmts => exact .some_step (List.forall_mem_append.2 ⟨hbody, hr stmts rfl⟩)
  | error d => exact .skip fun _ => .skip fun _ => .skip fun _ => .some_step hbody

theorem makes_declarations (room : Nat) : MakesStmts (7 * room + 9) (declarations room) :=
  .iterate (fun _ => makes_declarationStep room) (List.forall_mem_nil _)

end Parser

open Ember.Parser

/-- Each level of the room makes the tree seven deeper at most. -/
theorem TokenStream.within_parseWithin (room : Nat) (file : String) (stream : TokenStream)
    (table : SymbolTable) :
    (stream.parseWithin room file table).program.outline.Within (7 * room + 10) := by
  obtain ⟨body, s, hrun⟩ := declarations_ok room (State.start stream table)
  rw [parseWithin_of_ok hrun]
  exact .node_of_forall (Stmt.within_outlines (makes_declarations room _ body s hrun))

/-- The entries of a program tell of the nodes at the addresses in it. None that is outside of all
assignments which are values of others is deeper than the limit of the parser allows, besides the
links of chains on the way to it. -/
theorem Program.depth_le_parse (file : String) (source : Source) (table : SymbolTable) :
    let p := (Program.parse file source table).program
    List.Forall₂ (fun e address =>
        (∃ children, p.outline.part? address = some (.node e.head e.loc children)) ∧
          e.depth = address.length ∧
          (p.outline.reassignments address = 0 →
            e.depth ≤ 16 * 256 + p.outline.links address))
      p.entries p.outline.addresses := by
  intro p
  have hwithin : p.outline.Within (7 * maxDepth + 10) :=
    TokenStream.within_parseWithin maxDepth file _ table
  refine (Outline.entriesFrom_describe (-1) 0 0 p.outline).imp ?_
  rintro e address ⟨hdepth, children, hpart⟩
  rw [Nat.zero_add] at hdepth
  refine ⟨⟨children, hpart⟩, hdepth, fun hplain => ?_⟩
  have hlength := hwithin address (by rw [hpart, Option.isSome_some]) hplain
  have hroom : 7 * maxDepth + 10 ≤ 16 * 256 := by decide
  omega

theorem Outline.exists_mem_entries {o : Outline} {address : List Nat}
    (h : (o.part? address).isSome) : ∃ e ∈ o.entries, e.depth = address.length := by
  obtain ⟨k, hk⟩ := List.mem_iff_getElem?.1 ((o.mem_addresses address).2 h)
  obtain ⟨e, he⟩ := exists_entry hk
  exact ⟨e, List.mem_of_getElem? he, (describes_entries he hk).1⟩

namespace Expr

variable {r : Int → Int → Prop} {q : Location → Location → Prop}

def one : Expr := .literal (.int 1) .none

/-- A one and `n` more added to it. -/
def sum : Nat → Expr
  | 0 => one
  | n + 1 => .binary .add (sum n) one .none

theorem printable_one (name : Int → String) : one.Printable name :=
  .inr ⟨1, by decide, by decide⟩

theorem printable_sum (name : Int → String) (n : Nat) : (sum n).Printable name := by
  induction n with
  | zero => exact printable_one name
  | succ n ih => exact ⟨rfl, by cases n <;> rfl, ih, printable_one name⟩

/-- A sum needs no parentheses on the left of one more addition, and a one none on the right. -/
theorem needsParensBeside_sum (n : Nat) :
    (sum n).needsParensBeside BinaryOp.add.precedence false = false ∧
      one.needsParensBeside BinaryOp.add.precedence true = false := by
  cases n <;> exact ⟨rfl, rfl⟩

theorem bracketed_sum (n : Nat) : (sum n).bracketed = sum n := by
  induction n with
  | zero => rfl
  | succ n ih =>
    obtain ⟨hleft, hright⟩ := needsParensBeside_sum n
    rw [sum, bracketed, hleft, hright, ih]
    rfl

theorem nesting_sum (n : Nat) : (sum n).nesting = 1 := by
  induction n with
  | zero => rfl
  | succ n ih => simp only [sum, one, nesting, ih, Nat.max_self]

open Fragment in
theorem renderAll_sum (name : Int → String) (n : Nat) :
    renderAll ((sum n).fragments name) = "1" ++ String.join (List.replicate n " + 1") := by
  induction n with
  | zero => rfl
  | succ n ih =>
    obtain ⟨hleft, hright⟩ := needsParensBeside_sum n
    have hone : renderAll (space :: binaryOp .add :: space :: one.fragments name) = " + 1" := by
      rw [one, fragments]
      decide
    rw [List.replicate_succ', String.join_append, ← String.append_assoc, ← ih, sum, fragments,
      hleft, hright, renderAll_append]
    exact congrArg _ hone

/-- A chain of `n` links goes down `n` nodes. -/
theorem Alike.part_of_sum {n : Nat} {e : Expr} (h : Alike r q e (sum n)) :
    (e.outline.part? (List.replicate n 0)).isSome := by
  induction n generalizing e with
  | zero => rfl
  | succ n ih =>
    cases h with
    | binary hleft hright hloc => exact ih hleft

end Expr

/-- The canonical form of a program that a source text can give is read back, with the printer's
parentheses, if it nests no deeper than the limit. -/
theorem Program.parse_of_printable {p : Program} {name : Int → String}
    (hprintable : ∀ s ∈ p.body, s.Printable name)
    (hnesting : Stmt.nestingAll (Stmt.bracketedAll p.body) ≤ maxDepth) (file : String)
    (table : SymbolTable) :
    let q := Program.parse file (Source.ofString (p.format name)) table
    q.report = [] ∧
      Stmt.AlikeAll (SameText q.table.nameOf name) Anywhere q.program.body
        (Stmt.bracketedAll p.body) := by
  intro q
  have hlegible := Stmt.legible_program hprintable
  obtain ⟨hlexemes, hlex⟩ := TokenStream.ofSource_renderAll file hlegible
  obtain ⟨m, htokens, hgives, helse⟩ := Stmt.derives_bracketed hprintable _ hlexemes
  have hplain := (Stmt.plain_program name p.body).tokens hlexemes
  have hdepth : m.depth ≤ maxDepth := by
    rw [m.nestingAll_build (htokens ▸ hplain) table, (hgives table (.refl _)).nestingAll_eq]
    exact hnesting
  have hq : q = ⟨⟨file, (m.build table).1⟩, (m.build table).2, []⟩ :=
    TokenStream.parseWithin_of_derivation file table m htokens helse hdepth
      (hlegible.inRange hlexemes) hlex
  rw [hq]
  exact ⟨rfl, hgives table (.refl _)⟩

/-- A sum needs two levels of room, however long it is, and is as deep as it is long. -/
theorem Program.parse_sum (n : Nat) (file : String) (table : SymbolTable) :
    let text := "1" ++ String.join (List.replicate n " + 1") ++ ";\n"
    let p := Program.parse file (Source.ofString text) table
    p.report = [] ∧ ∃ e ∈ p.program.entries, e.depth = n + 2 := by
  intro text p
  let sum : Stmt := .expr (Expr.sum n) .none
  let name : Int → String := fun _ => ""
  have hbracketed : Stmt.bracketedAll [sum] = [.expr (Expr.sum n) .none] := by
    simp only [sum, Stmt.bracketedAll, Stmt.bracketed, Expr.bracketed_sum]
  have hnesting : Stmt.nestingAll (Stmt.bracketedAll [sum]) ≤ maxDepth := by
    rw [hbracketed]
    simp only [Stmt.nestingAll, Stmt.nesting, Expr.nesting_sum]
    decide
  have htext : Program.format name ⟨file, [sum]⟩ = text := by
    rw [Program.format, Stmt.programFragments, Stmt.fragments, Fragment.renderAll_append,
      Fragment.renderAll_append, Expr.renderAll_sum, String.append_assoc]
    rfl
  have hparse := Program.parse_of_printable (p := ⟨file, [sum]⟩)
    (List.forall_mem_singleton.2 (Expr.printable_sum name n)) hnesting file table
  rw [htext, hbracketed] at hparse
  obtain ⟨hreport, halike⟩ := hparse
  refine ⟨hreport, ?_⟩
  have hpart : (p.program.outline.part? (0 :: 0 :: List.replicate n 0)).isSome := by
    unfold Program.outline
    generalize p.program.body = ss at halike ⊢
    cases halike with
    | cons hs hrest =>
      cases hs with
      | expr he hloc => exact he.part_of_sum
  obtain ⟨e, he, hdepth⟩ := Outline.exists_mem_entries hpart
  exact ⟨e, he, by simpa using hdepth⟩

/-- Nothing is reported of the sum of 4097 ones, and its first one is deeper than sixteen nodes for
each level of the limit. -/
theorem Program.lt_depth_parse_sum :
    let text := "1" ++ String.join (List.replicate 4096 " + 1") ++ ";\n"
    let p := Program.parse "main.ember" (Source.ofString text) .empty
    (∀ d ∈ p.report, d.code ≠ .nestingTooDeep) ∧
      ¬ ∀ e ∈ p.program.entries, e.depth ≤ 16 * 256 := by
  obtain ⟨hreport, e, he, hdepth⟩ := Program.parse_sum 4096 "main.ember" .empty
  refine ⟨fun d hd => ?_, fun hbound => ?_⟩
  · rw [hreport] at hd
    cases hd
  · have hle := hbound e he
    rw [hdepth] at hle
    omega

end Ember
