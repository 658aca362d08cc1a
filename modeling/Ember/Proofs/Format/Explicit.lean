import Ember.Proofs.Format.RoundTrip
import Ember.Proofs.Outline.Parts
import Ember.Proofs.Recovery.Shape

namespace Ember

open Grammar

namespace Expr

mutual

/-- The expression with a group around each operator and no other groups. -/
def grouped : Expr → Expr
  | .literal value loc => .literal value loc
  | .var id loc => .var id loc
  | .group inner _ => inner.grouped
  | .assign target value loc => .group (.assign target.grouped value.grouped loc) loc
  | .unary op operand loc => .group (.unary op operand.grouped loc) loc
  | .binary op left right loc => .group (.binary op left.grouped right.grouped loc) loc
  | .call callee args loc => .call callee.grouped (groupedAll args) loc

def groupedAll : List Expr → List Expr
  | [] => []
  | e :: rest => e.grouped :: groupedAll rest

end

/-- No operator stands bare. -/
theorem needsParensAsCallee_grouped : (e : Expr) → e.grouped.needsParensAsCallee = false
  | .literal _ _ | .var _ _ | .assign _ _ _ | .unary _ _ _ | .binary _ _ _ _ | .call _ _ _ => rfl
  | .group inner _ => needsParensAsCallee_grouped inner

theorem isOperation_grouped (e : Expr) : e.grouped.isOperation = false := by
  have hbare := e.needsParensAsCallee_grouped
  cases hgrouped : e.grouped <;> simp_all [needsParensAsCallee, isOperation]

theorem needsParensBeside_grouped (e : Expr) (precedence : Nat) (right : Bool) :
    e.grouped.needsParensBeside precedence right = false := by
  have hbare := e.needsParensAsCallee_grouped
  cases hgrouped : e.grouped <;> simp_all [needsParensAsCallee, needsParensBeside]

theorem isCallee_grouped (e : Expr) : e.grouped.isCallee := by
  have hbare := e.needsParensAsCallee_grouped
  cases hgrouped : e.grouped <;> simp_all [needsParensAsCallee, isCallee]

theorem isOperand_grouped (e : Expr) : e.grouped.isOperand := isOperand_of_isCallee e.isCallee_grouped

theorem isAssignment_grouped (e : Expr) : e.grouped.isAssignment = false :=
  isAssignment_of_isOperand e.isOperand_grouped

mutual

/-- The groups are the parentheses of the fully parenthesised form. -/
theorem fragments_grouped (name : Int → String) :
    (e : Expr) → e.grouped.fragments name = e.explicitFragments name
  | .literal _ _ | .var _ _ => rfl
  | .group inner _ => fragments_grouped name inner
  | .assign target value _ => by
    simp only [grouped, fragments, explicitFragments, fragments_grouped name target,
      fragments_grouped name value]
  | .unary op operand _ => by
    simp only [grouped, fragments, explicitFragments, isOperation_grouped, Fragment.parensIf,
      Bool.false_eq_true, if_false, fragments_grouped name operand]
  | .binary op left right _ => by
    simp only [grouped, fragments, explicitFragments, needsParensBeside_grouped, Fragment.parensIf,
      Bool.false_eq_true, if_false, fragments_grouped name left, fragments_grouped name right]
  | .call callee args _ => by
    simp only [grouped, fragments, explicitFragments, needsParensAsCallee_grouped,
      Fragment.parensIf, Bool.false_eq_true, if_false, fragments_grouped name callee,
      fragmentLists_grouped name args]

theorem fragmentLists_grouped (name : Int → String) :
    (es : List Expr) → fragmentLists name (groupedAll es) = explicitFragmentLists name es
  | [] => rfl
  | e :: rest => by
    simp only [groupedAll, fragmentLists, explicitFragmentLists, fragments_grouped name e,
      fragmentLists_grouped name rest]

end

mutual

theorem sketch_grouped (name : Int → String) : (e : Expr) → e.grouped.sketch name = e.sketch name
  | .literal _ _ | .var _ _ => rfl
  | .group inner _ => sketch_grouped name inner
  | .assign target value _ => by
    simp only [grouped, sketch, sketch_grouped name target, sketch_grouped name value]
  | .unary op operand _ => by simp only [grouped, sketch, sketch_grouped name operand]
  | .binary op left right _ => by
    simp only [grouped, sketch, sketch_grouped name left, sketch_grouped name right]
  | .call callee args _ => by
    simp only [grouped, sketch, sketch_grouped name callee, sketches_grouped name args]

theorem sketches_grouped (name : Int → String) :
    (es : List Expr) → sketches name (groupedAll es) = sketches name es
  | [] => rfl
  | e :: rest => by
    simp only [groupedAll, sketches, sketch_grouped name e, sketches_grouped name rest]

end

mutual

theorem printable_grouped (name : Int → String) :
    (e : Expr) → e.Printable name → e.grouped.Printable name
  | .literal _ _, h | .var _ _, h => h
  | .group inner _, h => printable_grouped name inner h
  | .assign target value _, ⟨_, htarget, hvalue⟩ =>
    ⟨target.isAssignment_grouped, printable_grouped name target htarget,
      printable_grouped name value hvalue⟩
  | .unary _ operand _, ⟨_, h⟩ => ⟨operand.isOperand_grouped, printable_grouped name operand h⟩
  | .binary _ left right _, ⟨hop, _, hleft, hright⟩ =>
    ⟨hop, left.isAssignment_grouped, printable_grouped name left hleft,
      printable_grouped name right hright⟩
  | .call callee args _, ⟨_, hcallee, hargs⟩ =>
    ⟨callee.isCallee_grouped, printable_grouped name callee hcallee,
      printableAll_grouped name args hargs⟩

theorem printableAll_grouped (name : Int → String) :
    (es : List Expr) → PrintableAll name es → PrintableAll name (groupedAll es)
  | [], _ => trivial
  | e :: rest, ⟨he, hrest⟩ => ⟨printable_grouped name e he, printableAll_grouped name rest hrest⟩

end

end Expr

theorem Lexeme.closes_endOfFile : Closes .endOfFile :=
  ⟨⟨by simp, by simp [Parser.binaryOp?]⟩, rfl⟩

open Ember.Parser in
/-- The parser finds the tree of each derivation, so that all derivations of the same tokens as an
expression have one tree. -/
theorem Grammar.Phrase.build_eq_of_tokens {e e' : Phrase .expression} (htokens : e.tokens = e'.tokens)
    (hrange : ∀ t ∈ e.tokens, t.InRange) (table : SymbolTable) :
    (e.build table).1 = (e'.build table).1 ∧ (e.build table).2 = (e'.build table).2 := by
  let room := max e.depth e'.depth
  let s : State := ⟨e.tokens, .none, none, table, []⟩
  have hread : ∀ d : Phrase .expression, d.tokens = e.tokens → d.depth ≤ room →
      expression room s = .ok (d.build table).1 (s.past e.tokens [] (d.build table).2) := by
    intro d hd hdepth
    have hfits : Fits (fun _ => False) room d := ⟨fun _ => hdepth, fun _ => by rwa [hd]⟩
    have hagrees := accepts d room hfits s [] (by rw [List.append_nil, hd])
      Lexeme.closes_endOfFile
    rcases hagrees with hrun | ⟨_, _, hfalse⟩
    · rw [hrun, hd]
    · cases hfalse
  have hleft := hread e rfl (Nat.le_max_left ..)
  have hright := hread e' htokens.symm (Nat.le_max_right ..)
  rw [hleft] at hright
  injection hright with hbuild hstate
  exact ⟨hbuild, congrArg State.table hstate⟩

namespace Expr

open Fragment

/-- Expressions that a source text can give, of the same fully parenthesised text, differ only in
places and in groups. -/
theorem Printable.sketch_eq {name name' : Int → String} {e e' : Expr} (he : e.Printable name)
    (he' : e'.Printable name') (h : e.explicit name = e'.explicit name') :
    e.sketch name = e'.sketch name' := by
  have hlegible := legible name e.grouped (printable_grouped name e he)
  have hlegible' := legible name' e'.grouped (printable_grouped name' e' he')
  have hreads := (reads name e.grouped (printable_grouped name e he)).expression
  have hreads' := (reads name' e'.grouped (printable_grouped name' e' he')).expression
  rw [fragments_grouped] at hlegible hlegible' hreads hreads'
  -- One text has one row of lexemes.
  have hlexemes := (TokenStream.ofSource_renderAll "" hlegible).1
  have hlexemes' := (TokenStream.ofSource_renderAll "" hlegible').1
  rw [explicit, explicit] at h
  rw [← h] at hlexemes'
  obtain ⟨d, hd, hgives⟩ := hreads _ hlexemes
  obtain ⟨d', hd', hgives'⟩ := hreads' _ hlexemes'
  have hrange : ∀ t ∈ d.tokens, t.InRange := hlegible.inRange (hd ▸ hlexemes)
  obtain ⟨hbuild, htable⟩ :=
    Phrase.build_eq_of_tokens (hd.trans hd'.symm) hrange .empty
  have hsketch := (hgives .empty (.refl _)).sketch_eq
  have hsketch' := (hgives' .empty (.refl _)).sketch_eq
  rw [hbuild, htable] at hsketch
  have hsame := hsketch.symm.trans hsketch'
  rwa [sketch_bracketed, sketch_bracketed, sketch_grouped, sketch_grouped] at hsame

theorem inherited_printable (name : Int → String) : Inherited (Printable name) := by
  intro e h
  cases e with
  | literal | var => exact List.forall_mem_nil _
  | group => exact List.forall_mem_singleton.2 h
  | assign => exact List.forall_mem_cons.2 ⟨h.2.1, List.forall_mem_singleton.2 h.2.2⟩
  | unary => exact List.forall_mem_singleton.2 h.2
  | binary => exact List.forall_mem_cons.2 ⟨h.2.2.1, List.forall_mem_singleton.2 h.2.2.2⟩
  | call => exact List.forall_mem_cons.2 ⟨h.2.1, formedAll_iff.1 h.2.2⟩

end Expr

theorem Stmt.inherited_printable (name : Int → String) :
    Stmt.Inherited (Expr.Printable name) (Stmt.Printable name) where
  operands s h := by
    cases s with
    | function | block => exact List.forall_mem_nil _
    | var => exact fun e he => h.2.2 e (Option.mem_toList.1 he)
    | conditional cond body other => cases other <;> exact List.forall_mem_singleton.2 h.1
    | loop => exact List.forall_mem_singleton.2 h.1
    | returning => exact fun e he => h e (Option.mem_toList.1 he)
    | expr => exact List.forall_mem_singleton.2 h
  children s h := by
    cases s with
    | function => exact h.2.2.2.of_mem
    | block => exact Stmt.FormedAll.of_mem h
    | conditional cond body other =>
      cases other with
      | none => exact List.forall_mem_singleton.2 h.2.2
      | some other =>
        exact List.forall_mem_cons.2 ⟨h.2.1.2, List.forall_mem_singleton.2 h.2.2.2.2⟩
    | loop => exact List.forall_mem_singleton.2 h.2.2
    | var | returning | expr => exact List.forall_mem_nil _

namespace Program

/-- Every expression that is read can stand in a source text, also where other parts of the text
cannot be read. -/
theorem printable_of_mem_parts {file : String} {source : Source} {table : SymbolTable}
    {targets : Bool} {e : Expr}
    (h : e ∈ (Program.parse file source table).program.parts targets) :
    e.Printable (Program.parse file source table).table.nameOf :=
  Stmt.Inherited.partsAll (Expr.inherited_printable _) (Stmt.inherited_printable _) targets _
    (printable_parse file source table) e h

/-- Two expressions that are read, each with the names of its own table, and of the same fully
parenthesised text, differ only in places, in groups and in the ids of their names. -/
theorem sketch_eq_of_explicit {file file' : String} {source source' : Source}
    {table table' : SymbolTable} {e e' : Expr} :
    let parsed := Program.parse file source table
    let parsed' := Program.parse file' source' table'
    e ∈ parsed.program.parts true → e' ∈ parsed'.program.parts true →
      e.explicit parsed.table.nameOf = e'.explicit parsed'.table.nameOf →
        e.sketch parsed.table.nameOf = e'.sketch parsed'.table.nameOf :=
  fun h h' => Expr.Printable.sketch_eq (printable_of_mem_parts h) (printable_of_mem_parts h')

/-- An operation as a statement, and as an argument with other parentheses and other ids. -/
theorem sketch_eq_of_explicit_argument :
    let parsed := Program.parse "m" (Source.ofString "x = f(a)(1) + -b * 2;") .empty
    let parsed' := Program.parse "n" (Source.ofString "f(((x) = f((a))(1) + ((-b) * 2)));")
      .empty
    ∃ e ∈ parsed.program.parts true, ∃ e' ∈ parsed'.program.parts true,
      e.explicit parsed.table.nameOf = "(x = (f(a)(1) + ((-b) * 2)))" ∧
        e'.explicit parsed'.table.nameOf = "(x = (f(a)(1) + ((-b) * 2)))" ∧
        e.sketch parsed.table.nameOf = e'.sketch parsed'.table.nameOf := by
  intro parsed parsed'
  obtain ⟨e, he, htext⟩ : ∃ e ∈ parsed.program.parts true,
      e.explicit parsed.table.nameOf = "(x = (f(a)(1) + ((-b) * 2)))" := by
    decide +kernel
  obtain ⟨e', he', htext'⟩ : ∃ e' ∈ parsed'.program.parts true,
      e'.explicit parsed'.table.nameOf = "(x = (f(a)(1) + ((-b) * 2)))" := by
    decide +kernel
  exact ⟨e, he, e', he', htext, htext', sketch_eq_of_explicit he he' (htext.trans htext'.symm)⟩

end Program

end Ember
