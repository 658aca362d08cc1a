import Mathlib.Tactic.Linarith
import Ember.Proofs.Grammar.Copies
import Ember.Proofs.Recovery.Derivation
import Ember.Tree.Outline

namespace Ember

open Grammar

namespace Outline

mutual

/-- How many nodes a tree has. -/
@[simp] def size : Outline → Nat
  | .node _ _ children => sizeAll children + 1

@[simp] def sizeAll : List Outline → Nat
  | [] => 0
  | child :: rest => child.size + sizeAll rest

end

theorem sizeAll_append (as bs : List Outline) : sizeAll (as ++ bs) = sizeAll as + sizeAll bs := by
  induction as with
  | nil => simp
  | cons a as ih => simp [ih, Nat.add_assoc]

mutual

theorem length_entriesFrom_eq_size (parent : Int) (depth id : Nat) : (o : Outline) →
    (o.entriesFrom parent depth id).length = o.size
  | .node head loc children => by
    rw [entriesFrom, List.length_cons, length_childEntries_eq_sizeAll, size]

theorem length_childEntries_eq_sizeAll (parent : Int) (depth id : Nat) :
    (children : List Outline) → (childEntries parent depth id children).length = sizeAll children
  | [] => rfl
  | child :: rest => by
    rw [childEntries, List.length_append, length_entriesFrom_eq_size,
      length_childEntries_eq_sizeAll, sizeAll]

end

end Outline

/-- A budget pays for a cost, where each of the copies inside one another doubles what it buys. -/
def Affords (copies budget cost : Nat) : Prop := cost ≤ 2 ^ copies * budget

namespace Affords

variable {copies copies' budget budget' cost cost' : Nat}

theorem of_le (copies : Nat) (h : cost ≤ budget) : Affords copies budget cost :=
  h.trans (Nat.le_mul_of_pos_left budget (Nat.two_pow_pos copies))

/-- What is added to the cost is paid at its price. -/
theorem pay (n : Nat) (h : Affords copies budget cost) (hcost : cost' ≤ cost + n)
    (hbudget : budget + n ≤ budget') : Affords copies budget' cost' := by
  have hn : n ≤ 2 ^ copies * n := Nat.le_mul_of_pos_left n (Nat.two_pow_pos copies)
  calc cost' ≤ cost + n := hcost
    _ ≤ 2 ^ copies * budget + 2 ^ copies * n := Nat.add_le_add h hn
    _ = 2 ^ copies * (budget + n) := (Nat.mul_add ..).symm
    _ ≤ 2 ^ copies * budget' := Nat.mul_le_mul_left _ hbudget

theorem mono (h : Affords copies budget cost) (hcopies : copies ≤ copies') :
    Affords copies' budget cost :=
  h.trans (Nat.mul_le_mul_right budget (Nat.pow_le_pow_right Nat.two_pos hcopies))

/-- Parts that stand side by side. -/
theorem add (h : Affords copies budget cost) (h' : Affords copies' budget' cost') :
    Affords (max copies copies') (budget + budget') (cost + cost') := by
  have hleft := h.mono (Nat.le_max_left copies copies')
  have hright := h'.mono (Nat.le_max_right copies copies')
  unfold Affords at hleft hright ⊢
  rw [Nat.mul_add]
  exact Nat.add_le_add hleft hright

/-- A part that is there twice. -/
theorem twice (h : Affords copies budget cost) : Affords (copies + 1) budget (2 * cost) := by
  unfold Affords at h ⊢
  rw [Nat.pow_succ', Nat.mul_assoc]
  exact Nat.mul_le_mul_left 2 h

theorem scale (n : Nat) (h : Affords copies budget cost) :
    Affords copies (n * budget) (n * cost) := by
  unfold Affords at h ⊢
  rw [Nat.mul_left_comm]
  exact Nat.mul_le_mul_left n h

end Affords

namespace Grammar

/-- How many nodes the tree of a nonterminal has. -/
@[simp] def Level.size : (l : Level) → l.Tree → Nat
  | .arguments, es => Outline.sizeAll (Expr.outlines es)
  | .expression, e | .binary _, e | .unary, e | .call, e | .primary, e => (Expr.outline e).size

/-- An expression has a node for each token at most, if it holds no copies. -/
theorem Phrase.affords {l : Level} (e : Phrase l) (t : SymbolTable) :
    Affords e.copies e.tokens.length (l.size (e.build t).1) := by
  induction e generalizing t with
  | named | truth | integer => exact .of_le _ (Nat.le_refl _)
  | group opening inner closing ih =>
    apply (ih t).pay 1
    · simp [build, Expr.outline]
    · simp [tokens]
  | plain inner ih => exact ih t
  | callEmpty callee opening closing ih =>
    apply (ih t).pay 1
    · simp [build, Expr.outline, Expr.outlines]
    · simp [tokens]
  | callWith callee opening args closing ih ihArgs =>
    apply ((ih t).add (ihArgs (callee.build t).2)).pay 1
    · simp [build, Expr.outline]
    · simp only [tokens, List.length_append, List.length_cons, List.length_nil]
      omega
  | operand inner ih => exact ih t
  | operator mark op loc inner listed ih =>
    apply (ih t).pay 1
    · simp [build, Expr.outline]
    · simp [tokens]
  | lone inner ih => exact ih t
  | tighter inner ih => exact ih t
  | chain left mark op loc right listed ih ihRight =>
    apply ((ih t).add (ihRight (left.build t).2)).pay 1
    · simp [build, Expr.outline]
    · simp only [tokens, List.length_append, List.length_cons]
      omega
  | simple inner ih => exact ih t
  | assign target mark op loc value listed ih ihValue =>
    have htarget := ih t
    have hvalue := ihValue (target.build t).2
    cases op with
    | plain =>
      apply (htarget.add hvalue).pay 1
      · simp [build, stored, Expr.outline]
      · simp only [tokens, List.length_append, List.length_cons]
        omega
    | compound op =>
      -- The two nodes of the assignment and its operation are paid by one token, as there is a copy.
      have hcopied := ((htarget.pay 1 (Nat.le_refl _) (Nat.le_refl _)).twice).add hvalue
      apply hcopied.pay 0
      · simp [build, stored, Expr.outline]
        omega
      · simp only [tokens, List.length_append, List.length_cons]
        omega
  | argument inner ih =>
    apply (ih t).pay 0
    · simp [build, Expr.outlines]
    · simp [tokens]
  | another before comma last ih ihLast =>
    apply ((ih t).add (ihLast (before.build t).2)).pay 0
    · simp [build, Expr.outlines_eq_map, Outline.sizeAll_append]
    · simp [tokens]

theorem Phrase.affords_option (e : Option (Phrase .expression)) (t : SymbolTable) :
    Affords (Phrase.optionCopies e) (Phrase.optionTokens e).length
      (Outline.sizeAll ((Phrase.optionBuild e t).1.map Expr.outline).toList) := by
  cases e with
  | none => exact .of_le _ (Nat.le_refl _)
  | some e => exact e.affords t

theorem Declarator.affords (type : Datatype) (d : Declarator) (t : SymbolTable) :
    Affords d.copies (8 * d.tokens.length) (7 * (d.build type t).1.outline.size) := by
  have hinit := (Phrase.affords_option (d.init.map (·.2)) (t.add d.name type).2).scale 7
  apply hinit.pay 7
  · simp [build, Stmt.outline]
    omega
  · cases hinit : d.init with
    | none => simp [tokens, hinit, Phrase.optionTokens]
    | some init =>
      simp [tokens, hinit, Phrase.optionTokens]
      omega

theorem Declarators.affords (type : Datatype) (ds : Declarators) (t : SymbolTable) :
    Affords ds.copies (8 * ds.tokens.length)
      (7 * Outline.sizeAll (Stmt.outlines (ds.build type t).1)) := by
  induction ds with
  | one d =>
    apply (d.affords type t).pay 0
    · simp [build, Stmt.outlines]
    · simp [tokens]
  | another before comma d ih =>
    apply (ih.add (d.affords type (before.build type t).2)).pay 0
    · simp [build, Stmt.outlines_eq_map, Outline.sizeAll_append]
      omega
    · simp only [tokens, List.length_append, List.length_cons]
      omega

theorem Variables.affords (v : Variables) (t : SymbolTable) :
    Affords v.declarators.copies (8 * v.tokens.length)
      (7 * Outline.sizeAll (Stmt.outlines (v.build t).1)) := by
  apply (v.declarators.affords v.typeName.type t).pay 0
  · exact Nat.le_refl _
  · simp [tokens]

/-- The statement of an expression and `n` nodes more. -/
theorem Phrase.affords_statement (n : Nat) (e : Phrase .expression) (t : SymbolTable) :
    Affords e.copies (8 * e.tokens.length + (7 * n + 6))
      (7 * ((e.statement t).1.outline.size + n)) := by
  have hpos := e.length_tokens_pos
  apply ((e.affords t).scale 7).pay (7 * (n + 1))
  · simp [statement, Stmt.outline]
    omega
  · omega

theorem ForInit.affords (i : ForInit) (t : SymbolTable) :
    Affords i.copies (8 * i.tokens.length + 6)
      (7 * Outline.sizeAll (Stmt.outlines (i.build t).1)) := by
  cases i with
  | absent => exact .of_le _ (Nat.zero_le _)
  | vars v => exact (v.affords t).pay 0 (Nat.le_refl _) (by simp [tokens])
  | expression e =>
    apply (e.affords_statement 0 t).pay 0
    · simp [build, Stmt.outlines]
    · simp [tokens]

theorem Phrase.affords_step (e : Option (Phrase .expression)) (t : SymbolTable) (body : Stmt)
    {copies budget : Nat} (h : Affords copies budget (7 * body.outline.size)) :
    Affords (max (Phrase.optionCopies e) copies)
      (8 * (Phrase.optionTokens e).length + 13 + budget)
      (7 * (stepped body (Phrase.optionStatement e t).1).outline.size) := by
  cases e with
  | none => exact (h.mono (Nat.le_max_right ..)).pay 0 (Nat.le_refl _) (Nat.le_add_left ..)
  | some e =>
    apply ((e.affords_statement 1 t).add h).pay 0
    · simp [optionStatement, stepped, Stmt.outline, Stmt.outlines]
      omega
    · simp [optionTokens]

/-- The condition of a loop is a literal if it is absent. -/
theorem Phrase.affords_condition (e : Option (Phrase .expression)) (loc : Location)
    (t : SymbolTable) :
    Affords (Phrase.optionCopies e) (8 * (Phrase.optionTokens e).length + 7)
      (7 * ((Phrase.optionBuild e t).1.getD (.literal (.bool true) loc)).outline.size) := by
  cases e with
  | none => exact .of_le _ (Nat.le_refl _)
  | some e =>
    apply ((e.affords t).scale 7).pay 0
    · exact Nat.le_refl _
    · simp [optionTokens]
      omega

@[simp] def Role.size : (r : Role) → r.Tree → Nat
  | .statement, s => (Stmt.outline s).size
  | .entry, ss | .entries, ss => Outline.sizeAll (Stmt.outlines ss)

/-- Eight for each token pay for seven for each node. -/
theorem Clause.affords {r : Role} (c : Clause r) (t : SymbolTable) :
    Affords c.copies (8 * c.tokens.length) (7 * r.size (c.build t).1) := by
  induction c generalizing t with
  | block opening body closing ih =>
    apply (ih t).pay 7
    · simp [build, Stmt.outline]
      omega
    · simp only [tokens, List.length_append, List.length_cons, List.length_nil]
      omega
  | ifThen loc opening cond closing body ih =>
    apply (((cond.affords t).scale 7).add (ih (cond.build t).2)).pay 7
    · simp [build, Stmt.outline]
      omega
    · simp only [tokens, List.length_append, List.length_cons]
      omega
  | ifElse loc opening cond closing body elseLoc other ih ihOther =>
    have hbranches := (ih (cond.build t).2).add (ihOther (body.build (cond.build t).2).2)
    apply (((cond.affords t).scale 7).add hbranches).pay 7
    · simp [build, Stmt.outline]
      omega
    · simp only [tokens, List.length_append, List.length_cons]
      omega
  | doWhile loc body whileLoc opening cond closing semicolon ih =>
    apply ((ih t).twice.add ((cond.affords (body.build t).2).scale 7)).pay 14
    · simp [build, Stmt.outline, Stmt.outlines]
      omega
    · simp only [tokens, List.length_append, List.length_cons, List.length_nil]
      omega
  | forLoop loc opening init afterInit cond afterCond step closing body ih =>
    have hinit := init.affords t
    have hcond := Phrase.affords_condition cond afterCond (init.build t).2
    let n := Phrase.optionStatement step (Phrase.optionBuild cond (init.build t).2).2
    have hstep : Affords _ _ (7 * (stepped (body.build n.2).1 n.1).outline.size) :=
      Phrase.affords_step step _ _ (ih n.2)
    apply (hinit.add (hcond.add hstep)).pay 14
    · simp [build, Stmt.outline, Stmt.outlines_eq_map, Outline.sizeAll_append, n]
      omega
    · simp only [tokens, List.length_append, List.length_cons]
      omega
  | whileLoop loc opening cond closing body ih =>
    apply (((cond.affords t).scale 7).add (ih (cond.build t).2)).pay 7
    · simp [build, Stmt.outline]
      omega
    · simp only [tokens, List.length_append, List.length_cons]
      omega
  | returning loc value semicolon =>
    apply ((Phrase.affords_option value t).scale 7).pay 7
    · simp [build, Stmt.outline]
      omega
    · simp only [tokens, List.length_append, List.length_cons, List.length_nil]
      omega
  | expr e semicolon =>
    apply (e.affords_statement 0 t).pay 0
    · exact Nat.le_refl _
    · simp only [tokens, List.length_append, List.length_cons, List.length_nil]
      omega
  | vars v semicolon =>
    apply (v.affords t).pay 0
    · exact Nat.le_refl _
    · simp [tokens]
  | single s ih =>
    apply (ih t).pay 0
    · simp [build, Stmt.outlines]
    · simp [tokens]
  | nothing => exact .of_le _ (Nat.le_refl _)
  | another before last ih ihLast =>
    apply ((ih t).add (ihLast (before.build t).2)).pay 0
    · simp [build, Stmt.outlines_eq_map, Outline.sizeAll_append]
      omega
    · simp only [tokens, List.length_append]
      omega

theorem Parameters.length_build_le (ps : Option Parameters) (t : SymbolTable) :
    (Parameters.optionBuild ps t).1.length ≤ (Parameters.optionTokens ps).length := by
  cases ps with
  | none => exact Nat.le_refl _
  | some ps =>
    simp only [optionBuild, optionTokens, Option.map_some, Option.getD_some]
    induction ps with
    | one p => simp [build, tokens, Parameter.tokens]
    | another before comma p ih =>
      simp only [build, tokens, Parameter.tokens, List.length_append, List.length_cons]
      omega

theorem sizeAll_params (ps : List Param) :
    Outline.sizeAll (ps.map Param.outline) = ps.length := by
  induction ps with
  | nil => rfl
  | cons p ps ih => simp [Param.outline, ih, Nat.add_comm]

theorem Declaration.affords (d : Declaration) (t : SymbolTable) :
    Affords d.copies (8 * d.tokens.length)
      (7 * Outline.sizeAll (Stmt.outlines (d.build t).1)) := by
  cases d with
  | function f =>
    let id := t.add f.name .empty
    let ps := Parameters.optionBuild f.params id.2
    have hparams : ps.1.length ≤ _ := Parameters.length_build_le f.params id.2
    have hbody := f.body.affords (ps.2.retype id.1 f.result.type)
    apply hbody.pay (7 * (ps.1.length + 2))
    · simp [build, Function.build, Stmt.outline, Stmt.outlines, Outline.sizeAll_append,
        sizeAll_params, ps, id]
      omega
    · simp only [tokens, Function.tokens, List.length_append, List.length_cons, List.length_nil]
      omega
  | entry e => exact e.affords t

theorem Module.affords (m : Module) (t : SymbolTable) :
    Affords m.copies (8 * m.tokens.length)
      (7 * Outline.sizeAll (Stmt.outlines (m.build t).1)) := by
  induction m with
  | nothing => exact .of_le _ (Nat.le_refl _)
  | another before last ih =>
    apply (ih.add (last.affords (before.build t).2)).pay 0
    · simp [build, Stmt.outlines_eq_map, Outline.sizeAll_append]
      omega
    · simp only [tokens, List.length_append]
      omega

end Grammar

/-- Four copies inside one another need enough tokens for their nodes to be below the square. -/
theorem le_sq_of_copies {copies nodes tokens : Nat} (hnodes : 7 * nodes ≤ 2 ^ (copies + 3) * tokens)
    (htokens : 4 * copies < tokens) (hcopies : copies ≤ 4) : nodes ≤ (tokens + 1) ^ 2 := by
  have hfew : ∀ c ≤ 4, 2 ^ (c + 3) ≤ 7 * (4 * c + 3) := by decide
  have hfactor : 2 ^ (copies + 3) ≤ 7 * (tokens + 2) :=
    (hfew copies hcopies).trans (by omega)
  have hsquare : (tokens + 2) * tokens ≤ (tokens + 1) ^ 2 := by
    rw [Nat.pow_two]
    nlinarith
  have hseven : 7 * nodes ≤ 7 * (tokens + 1) ^ 2 :=
    calc 7 * nodes ≤ 2 ^ (copies + 3) * tokens := hnodes
      _ ≤ 7 * (tokens + 2) * tokens := Nat.mul_le_mul_right tokens hfactor
      _ = 7 * ((tokens + 2) * tokens) := Nat.mul_assoc ..
      _ ≤ 7 * (tokens + 1) ^ 2 := Nat.mul_le_mul_left 7 hsquare
  omega

/-- What is parsed is the tree of a derivation of some of the tokens, and has not many more nodes
than there are tokens, doubled for each of the copied parts that lie inside one another. Such parts
take four tokens each, and up to four of them leave the nodes within the square of the tokens. -/
theorem Program.length_entries_parse (file : String) (source : Source) (table : SymbolTable) :
    let stream := TokenStream.ofSource file source
    let parsed := Program.parse file source table
    ∃ m : Module, m.tokens.Sublist stream.tokens ∧
      (m.build parsed.table).1 = parsed.program.body ∧
      4 * m.copies < stream.allTokens.length ∧
      7 * parsed.program.entries.length ≤ 2 ^ (m.copies + 3) * stream.allTokens.length ∧
      (m.copies ≤ 4 → parsed.program.entries.length ≤ (stream.allTokens.length + 1) ^ 2) := by
  intro stream parsed
  obtain ⟨m, hsublist, -, -, hsettled⟩ :=
    stream.exists_derivation Parser.maxDepth file table
  have hbuild : (m.build parsed.table).1 = parsed.program.body := hsettled.keeps.1
  have hlength := hsublist.length_le
  have hall : stream.allTokens.length = stream.tokens.length + 1 := List.length_append
  have hcopies : 4 * m.copies < stream.allTokens.length := by
    have hle := m.copies_le
    omega
  have hnodes : 7 * parsed.program.entries.length ≤ 2 ^ (m.copies + 3) * stream.allTokens.length := by
    have hsize : parsed.program.entries.length =
        Outline.sizeAll (Stmt.outlines (m.build parsed.table).1) + 1 := by
      rw [hbuild]
      exact Outline.length_entriesFrom_eq_size (-1) 0 0 parsed.program.outline
    have hpaid : Affords m.copies (8 * stream.allTokens.length)
        (7 * parsed.program.entries.length) := by
      apply (m.affords parsed.table).pay 7 <;> omega
    rwa [Affords, ← Nat.mul_assoc, ← Nat.pow_add 2 m.copies 3] at hpaid
  exact ⟨m, hsublist, hbuild, hcopies, hnodes, le_sq_of_copies hnodes hcopies⟩

/-- The body of a loop and the target of an assignment in it are copied. -/
theorem Program.length_entries_parse_doWhile :
    let source := Source.ofString "do a += 1; while (a < 3);"
    let stream := TokenStream.ofSource "a file" source
    let parsed := Program.parse "a file" source .empty
    stream.allTokens.length = 13 ∧ parsed.program.entries.length ≤ 196 := by
  intro source stream parsed
  have hlength : stream.allTokens.length = 13 := by decide +kernel
  obtain ⟨m, -, -, hcopies, -, hnodes⟩ := Program.length_entries_parse "a file" source .empty
  rw [hlength] at hcopies hnodes
  exact ⟨hlength, hnodes (by omega)⟩

/-- Eight compound assignments inside one another: 33 tokens make 1277 nodes. -/
theorem Program.length_entries_parse_compound :
    let source := Source.ofString "(((((((a += 1) += 1) += 1) += 1) += 1) += 1) += 1) += 1;"
    let stream := TokenStream.ofSource "a file" source
    let parsed := Program.parse "a file" source .empty
    parsed.report = [] ∧ stream.allTokens.length = 33 ∧ parsed.program.entries.length = 1277 ∧
      ¬ parsed.program.entries.length ≤ (stream.allTokens.length + 1) ^ 2 := by
  decide +kernel

end Ember
