import Ember.Proofs.Grammar.Program

namespace Ember.Grammar

namespace Clause

/-- The derivation with an `else` for the innermost conditional that it ends in. -/
def attach : {r : Role} → Clause r → Location → Clause .statement → Clause r
  | _, .ifThen loc opening cond closing body, elseLoc, other =>
    if body.isOpen then .ifThen loc opening cond closing (body.attach elseLoc other)
    else .ifElse loc opening cond closing body elseLoc other
  | _, .ifElse loc opening cond closing body elseLoc' other', elseLoc, other =>
    .ifElse loc opening cond closing body elseLoc' (other'.attach elseLoc other)
  | _, .forLoop loc opening init afterInit cond afterCond step closing body, elseLoc, other =>
    .forLoop loc opening init afterInit cond afterCond step closing (body.attach elseLoc other)
  | _, .whileLoop loc opening cond closing body, elseLoc, other =>
    .whileLoop loc opening cond closing (body.attach elseLoc other)
  | _, c, _, _ => c

theorem tokens_attach {r : Role} (c : Clause r) (hopen : c.isOpen) (elseLoc : Location)
    (other : Clause .statement) :
    (c.attach elseLoc other).tokens = c.tokens ++ ⟨.keyword .elseKw, elseLoc⟩ :: other.tokens := by
  induction c with
  | ifThen loc opening cond closing body ih =>
    rw [attach]
    split
    · rename_i hbody
      simp [tokens, ih hbody]
    · simp [tokens]
  | ifElse loc opening cond closing body elseLoc' other' _ ih => simp [attach, tokens, ih hopen]
  | forLoop loc opening init afterInit cond afterCond step closing body ih =>
    simp [attach, tokens, ih hopen]
  | whileLoop loc opening cond closing body ih => simp [attach, tokens, ih hopen]
  | block | doWhile | returning | expr | vars | single | nothing | another => cases hopen

theorem nearestElse_attach {r : Role} (c : Clause r) (hc : c.NearestElse) {elseLoc : Location}
    {other : Clause .statement} (hother : other.NearestElse) :
    (c.attach elseLoc other).NearestElse := by
  induction c with
  | ifThen loc opening cond closing body ih =>
    rw [attach]
    split
    · exact ih hc
    · rename_i hbody
      exact ⟨by simpa using hbody, hc, hother⟩
  | ifElse loc opening cond closing body elseLoc' other' _ ih => exact ⟨hc.1, hc.2.1, ih hc.2.2⟩
  | forLoop loc opening init afterInit cond afterCond step closing body ih => exact ih hc
  | whileLoop loc opening cond closing body ih => exact ih hc
  | block | doWhile | returning | expr | vars | single | nothing | another => exact hc

/-- Every text has a derivation in which each `else` belongs to the nearest open conditional. -/
theorem exists_nearestElse {r : Role} (c : Clause r) :
    ∃ c' : Clause r, c'.tokens = c.tokens ∧ c'.NearestElse := by
  induction c with
  | block opening body closing ih =>
    obtain ⟨body', htokens, helse⟩ := ih
    exact ⟨.block opening body' closing, by simp [tokens, htokens], helse⟩
  | ifThen loc opening cond closing body ih =>
    obtain ⟨body', htokens, helse⟩ := ih
    exact ⟨.ifThen loc opening cond closing body', by simp [tokens, htokens], helse⟩
  | ifElse loc opening cond closing body elseLoc other ih ihOther =>
    obtain ⟨body', htokens, helse⟩ := ih
    obtain ⟨other', htokens', helse'⟩ := ihOther
    -- An `else` behind an open body moves into it.
    cases hopen : body'.isOpen with
    | false =>
      exact ⟨.ifElse loc opening cond closing body' elseLoc other',
        by simp [tokens, htokens, htokens'], hopen, helse, helse'⟩
    | true =>
      refine ⟨.ifThen loc opening cond closing (body'.attach elseLoc other'), ?_,
        nearestElse_attach body' helse helse'⟩
      simp [tokens, tokens_attach body' hopen, htokens, htokens']
  | doWhile loc body whileLoc opening cond closing semicolon ih =>
    obtain ⟨body', htokens, helse⟩ := ih
    exact ⟨.doWhile loc body' whileLoc opening cond closing semicolon, by simp [tokens, htokens],
      helse⟩
  | forLoop loc opening init afterInit cond afterCond step closing body ih =>
    obtain ⟨body', htokens, helse⟩ := ih
    exact ⟨.forLoop loc opening init afterInit cond afterCond step closing body',
      by simp [tokens, htokens], helse⟩
  | whileLoop loc opening cond closing body ih =>
    obtain ⟨body', htokens, helse⟩ := ih
    exact ⟨.whileLoop loc opening cond closing body', by simp [tokens, htokens], helse⟩
  | returning loc value semicolon => exact ⟨.returning loc value semicolon, rfl, trivial⟩
  | expr e semicolon => exact ⟨.expr e semicolon, rfl, trivial⟩
  | vars v semicolon => exact ⟨.vars v semicolon, rfl, trivial⟩
  | single s ih =>
    obtain ⟨s', htokens, helse⟩ := ih
    exact ⟨.single s', htokens, helse⟩
  | nothing => exact ⟨.nothing, rfl, trivial⟩
  | another before last ih ihLast =>
    obtain ⟨before', htokens, helse⟩ := ih
    obtain ⟨last', htokens', helse'⟩ := ihLast
    exact ⟨.another before' last', by simp [tokens, htokens, htokens'], helse, helse'⟩

end Clause

theorem Declaration.exists_nearestElse (d : Declaration) :
    ∃ d' : Declaration, d'.tokens = d.tokens ∧ d'.NearestElse := by
  cases d with
  | function f =>
    obtain ⟨body, htokens, helse⟩ := f.body.exists_nearestElse
    exact ⟨.function { f with body }, by simp [tokens, Function.tokens, htokens], helse⟩
  | entry e =>
    obtain ⟨e', htokens, helse⟩ := e.exists_nearestElse
    exact ⟨.entry e', htokens, helse⟩

theorem Module.exists_nearestElse (m : Module) :
    ∃ m' : Module, m'.tokens = m.tokens ∧ m'.NearestElse := by
  induction m with
  | nothing => exact ⟨.nothing, rfl, trivial⟩
  | another before last ih =>
    obtain ⟨before', htokens, helse⟩ := ih
    obtain ⟨last', htokens', helse'⟩ := last.exists_nearestElse
    exact ⟨.another before' last', by simp [tokens, htokens, htokens'], helse, helse'⟩

end Ember.Grammar
