import Ember.Proofs.Format.Legible
import Ember.Proofs.Format.Program

namespace Ember

open Fragment

namespace Fragment

/-- A fragment with which the text of an operand begins. -/
def startsOperand : Fragment → Bool
  | lexeme (.identifier _) | lexeme (.integer _) | lexeme (.keyword _) => true
  | lexeme (.mark m) => m == .parenOpen || m == .minus || m == .bang
  | _ => false

/-- An operand begins with no character that the operator before it would take in. -/
theorem apart_operator (op : UnaryOp) {f : Fragment} (hsound : f.Sound) (h : f.startsOperand) :
    Apart (mark op.mark) f := by
  have hword : ∀ l : Lexeme, l.Readable → (∀ m, l ≠ .mark m) →
      (Lexeme.mark op.mark).EndsBefore l.source := by
    intro l hl hmark g hg
    have hne := Lexeme.toChar_ne_equal hl hmark hg
    cases op <;> simp [Lexeme.partsFrom, UnaryOp.mark, hne]
  cases f with
  | verbatim | space | newline => cases h
  | lexeme l =>
    cases l with
    | endOfFile => cases h
    | identifier | integer | keyword => exact hword _ hsound.1 (by simp)
    | mark m =>
      have hm : m = .parenOpen ∨ m = .minus ∨ m = .bang := by
        simpa [startsOperand, or_assoc] using h
      intro g hg
      rcases hm with rfl | rfl | rfl <;> cases hg <;> cases op <;> rfl

theorem Legible.operator (op : UnaryOp) {f : Fragment} {rest : List Fragment}
    (h : Legible (f :: rest)) (hstart : f.startsOperand) :
    Legible (Fragment.mark op.mark :: f :: rest) := by
  have hsound := h.sound f List.mem_cons_self
  refine ⟨List.forall_mem_cons.2 ⟨sound_mark op.mark, h.sound⟩, ?_⟩
  exact List.isChain_cons_cons.2 ⟨apart_operator op hsound hstart, h.apart⟩

theorem sound_literal {l : Literal} (h : l.Printable) :
    (literal l).Sound ∧ (literal l).startsOperand := by
  rcases h with ⟨b, rfl⟩ | ⟨n, hn, rfl⟩
  · exact ⟨sound_keyword _, rfl⟩
  · rw [literal_literalOf hn]
    refine ⟨⟨Lexeme.readable_toString n, fun digits hdigits => ?_⟩, rfl⟩
    cases hdigits
    rwa [Grammar.numeral_toString]

end Fragment

namespace Expr

theorem exists_parensIf {row : List Fragment} (needed : Bool)
    (h : ∃ f rest, row = f :: rest ∧ f.startsOperand) :
    ∃ f rest, parensIf needed row = f :: rest ∧ f.startsOperand := by
  unfold parensIf
  split
  · exact ⟨mark .parenOpen, _, rfl, rfl⟩
  · exact h

theorem exists_start (name : Int → String) : (e : Expr) → e.Printable name →
    ∃ f rest, e.fragments name = f :: rest ∧ f.startsOperand
  | .var _ _, _ => ⟨_, _, rfl, rfl⟩
  | .group _ _, _ => ⟨_, _, rfl, rfl⟩
  | .unary op _ _, _ => ⟨_, _, rfl, by cases op <;> rfl⟩
  | .literal value _, h => ⟨_, _, rfl, (sound_literal h).2⟩
  | .assign target value loc, h => by
    obtain ⟨f, rest, hrow, hf⟩ := exists_start name target h.2.1
    exact ⟨f, _, by rw [fragments, hrow, List.cons_append], hf⟩
  | .binary op left right loc, h => by
    obtain ⟨f, rest, hrow, hf⟩ := exists_parensIf (left.needsParensBeside op.precedence false)
      (exists_start name left h.2.2.1)
    exact ⟨f, _, by rw [fragments, hrow, List.cons_append], hf⟩
  | .call callee args loc, h => by
    obtain ⟨f, rest, hrow, hf⟩ := exists_parensIf callee.needsParensAsCallee
      (exists_start name callee h.2.1)
    exact ⟨f, _, by rw [fragments, hrow, List.cons_append], hf⟩

mutual

theorem legible (name : Int → String) : (e : Expr) → e.Printable name →
    Legible (e.fragments name)
  | .literal value _, h => .single (sound_literal h).1
  | .var _ _, h => .named h
  | .group inner _, h => (legible name inner h).parens
  | .assign target value _, ⟨_, htarget, hvalue⟩ =>
    (legible name target htarget).spaced ((Legible.mark .assign).spaced (legible name value hvalue))
  | .unary op operand _, ⟨_, h⟩ => by
    obtain ⟨f, rest, hrow, hf⟩ := exists_parensIf operand.isOperation (exists_start name operand h)
    have hoperand := (legible name operand h).parensIf operand.isOperation
    rw [fragments, hrow]
    rw [hrow] at hoperand
    exact hoperand.operator op hf
  | .binary op left right _, ⟨hop, _, hleft, hright⟩ => by
    obtain ⟨m, hm⟩ := Option.isSome_iff_exists.1 hop
    have hsecond := (Legible.mark m).spaced ((legible name right hright).parensIf
      (right.needsParensBeside op.precedence true))
    simp only [fragments, binaryOp, hm]
    exact ((legible name left hleft).parensIf _).spaced hsecond
  | .call callee args _, ⟨_, hcallee, hargs⟩ => by
    have hinner := Legible.commaSeparated (legibleAll name args hargs)
    exact ((legible name callee hcallee).parensIf _).cut (mark .parenOpen) rfl
      (hinner.stop (mark .parenClose) rfl)

theorem legibleAll (name : Int → String) : (es : List Expr) → Expr.PrintableAll name es →
    ∀ row ∈ Expr.fragmentLists name es, Legible row
  | [], _ => by simp [fragmentLists]
  | e :: rest, h =>
    List.forall_mem_cons.2 ⟨legible name e h.1, legibleAll name rest h.2⟩

end

end Expr

theorem Param.legible {name : Int → String} {p : Param} (h : p.Printable name) :
    Legible (p.fragments name) :=
  (Legible.datatype h.1).spaced (.named h.2)

namespace Stmt

mutual

theorem legible (name : Int → String) : (s : Stmt) → s.Printable name → ∀ indent,
    Legible (s.fragments name indent)
  | .function id params result body _ _, ⟨hname, hparams, hresult, hbody⟩, indent => by
    have hrows : ∀ row ∈ params.map (Param.fragments name), Legible row :=
      List.forall_mem_map.2 fun p hp => Param.legible (hparams p hp)
    have hbraces := Legible.braces indent (legibleAll name body hbody (indent + 1))
    have hresult' := ((Legible.datatype hresult).spaced hbraces).start space rfl
    have hparams' := (Legible.commaSeparated hrows).cut (mark .parenClose) rfl
      (hresult'.start (mark .colon) rfl)
    have hrow := (Legible.keyword .fnKw).spaced
      ((Legible.named hname).cut (mark .parenOpen) rfl hparams')
    simpa [Stmt.fragments, parens] using hrow
  | .var id type none _, ⟨hname, htype, _⟩, _ =>
    (Legible.datatype htype).spaced ((Legible.named hname).stop (mark .semicolon) rfl)
  | .var id type (some e) _, ⟨hname, htype, hinit⟩, _ => by
    have hvalue := (e.legible name (hinit e rfl)).stop (mark .semicolon) rfl
    have hassign := (Legible.named hname).spaced ((Legible.mark .assign).spaced hvalue)
    simpa [Stmt.fragments] using (Legible.datatype htype).spaced hassign
  | .block body _, h, indent => .braces indent (legibleAll name body h (indent + 1))
  | .conditional cond body none _, ⟨hcond, _, hbody⟩, indent => by
    obtain ⟨f, i, hf, hbodyRow⟩ := exists_hanging body indent (fun i => body.fragments name i)
    have hhead := (cond.legible name hcond).parens.cut f (isDivider_of_isBlank hf)
      (legible name body hbody i)
    simpa [Stmt.fragments, hbodyRow] using (Legible.keyword .ifKw).spaced hhead
  | .conditional cond body (some other) _, ⟨hcond, ⟨_, hbody⟩, _, _, hother⟩, indent => by
    obtain ⟨f, i, hf, hbodyRow⟩ := exists_hanging body indent (fun i => body.fragments name i)
    obtain ⟨f', hf', helseRow⟩ := exists_beforeAlternative body indent
    obtain ⟨f'', j, hf'', hotherRow⟩ :=
      exists_alternative other indent (fun i => other.fragments name i)
    have helse := (Legible.keyword .elseKw).cut f'' (isDivider_of_isBlank hf'')
      (legible name other hother j)
    have hbranches := (legible name body hbody i).cut f' (isDivider_of_isBlank hf') helse
    have hhead := (cond.legible name hcond).parens.cut f (isDivider_of_isBlank hf) hbranches
    simpa [Stmt.fragments, hbodyRow, helseRow, hotherRow] using
      (Legible.keyword .ifKw).spaced hhead
  | .loop cond body _, ⟨hcond, _, hbody⟩, indent => by
    obtain ⟨f, i, hf, hbodyRow⟩ := exists_hanging body indent (fun i => body.fragments name i)
    have hhead := (cond.legible name hcond).parens.cut f (isDivider_of_isBlank hf)
      (legible name body hbody i)
    simpa [Stmt.fragments, hbodyRow] using (Legible.keyword .whileKw).spaced hhead
  | .returning none _, _, _ => (Legible.keyword .returnKw).stop (mark .semicolon) rfl
  | .returning (some e) _, h, _ =>
    (Legible.keyword .returnKw).spaced ((e.legible name (h e rfl)).stop (mark .semicolon) rfl)
  | .expr e _, h, _ => (e.legible name h).stop (mark .semicolon) rfl

theorem legibleAll (name : Int → String) : (ss : List Stmt) → Stmt.PrintableAll name ss →
    ∀ indent, ∀ row ∈ Stmt.fragmentLists name ss indent, Legible row
  | [], _, _ => by simp [fragmentLists]
  | s :: rest, ⟨_, hs, hrest⟩, indent =>
    List.forall_mem_cons.2 ⟨legible name s hs indent, legibleAll name rest hrest indent⟩

end

/-- Printed programs are legible. -/
theorem legible_program {name : Int → String} {body : List Stmt}
    (h : ∀ s ∈ body, s.Printable name) : Legible (programFragments name body) := by
  fun_induction programFragments name body with
  | case1 => exact .nil
  | case2 s => exact (legible name s (h s (by simp)) 0).stop (newline 0) rfl
  | case3 s rest _ ih =>
    obtain ⟨hs, hrest⟩ := List.forall_mem_cons.1 h
    rw [List.append_assoc]
    split
    · exact (legible name s hs 0).cut (newline 0) rfl ((ih hrest).start (newline 0) rfl)
    · exact (legible name s hs 0).cut (newline 0) rfl (ih hrest)

end Stmt

end Ember
