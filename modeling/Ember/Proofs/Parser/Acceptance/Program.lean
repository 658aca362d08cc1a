import Ember.Proofs.Grammar.Program
import Ember.Proofs.Parser.Acceptance.Statement

namespace Ember.Parser

open Grammar

variable {E : Code → Prop} {s : State} {room : Nat}

theorem agrees_param {p : Parameter} {rest : List Token} (hs : s.ahead = p.tokens ++ rest) :
    Agrees E (param s) (.ok (p.build s.table).1 (s.past p.tokens rest (p.build s.table).2)) :=
  .current hs (.datatype hs (.identifier rfl (.enter (.refl _))))

theorem agrees_params_list {rest : List Token} (ps : Parameters) :
    s.ahead = ps.tokens ++ rest →
    Agrees E (commaSeparated param s) (iterate (commaStep param) (ps.build s.table).1
      (s.past ps.tokens rest (ps.build s.table).2)) := by
  induction ps generalizing rest with
  | one p =>
    intro hs
    rw [commaSeparated_eq]
    exact (agrees_param hs).bind (fun _ => .iterate (Orderly.commaStep .param) _) (.refl _)
  | another before comma p ih =>
    intro hs
    have hahead : s.ahead = before.tokens ++ ⟨.mark .comma, comma⟩ :: (p.tokens ++ rest) := by
      rw [hs]
      simp [Parameters.tokens]
    refine (ih hahead).trans
      (iterate_go (productive_commaStep .param) (.commaStep .param) (.accept rfl ?_))
    refine (agrees_param rfl).bind (fun _ => .pure _) (.pure ?_)
    simp [Parameters.tokens, Parameters.build]

theorem parameters_current_ne (ps : Parameters) {rest : List Token}
    (hs : s.ahead = ps.tokens ++ rest) : s.current.lexeme ≠ .mark .parenClose := by
  obtain ⟨n, ts, htokens⟩ : ∃ (n : TypeName) (ts : List Token), ps.tokens = n.token :: ts := by
    clear hs
    induction ps with
    | one p => exact ⟨p.typeName, _, rfl⟩
    | another before comma p ih =>
      obtain ⟨n, ts, htokens⟩ := ih
      exact ⟨n, _, by rw [Parameters.tokens, htokens, List.cons_append]⟩
  rw [htokens] at hs
  rw [State.current_eq hs]
  simp [TypeName.token]

theorem agrees_params {ps : Option Parameters} {opening closing : Location} {rest : List Token}
    (hs : s.ahead = ⟨.mark .parenOpen, opening⟩ ::
      (Parameters.optionTokens ps ++ ⟨.mark .parenClose, closing⟩ :: rest)) :
    Agrees E (params s) (.ok (Parameters.optionBuild ps s.table).1
      (s.past (⟨.mark .parenOpen, opening⟩ ::
        (Parameters.optionTokens ps ++ [⟨.mark .parenClose, closing⟩])) rest
        (Parameters.optionBuild ps s.table).2)) := by
  rw [params_eq]
  refine .expect hs ?_
  cases ps with
  | none =>
    refine (closedBy_absent rfl).trans (.inl ?_)
    simp [Parameters.optionTokens, Parameters.optionBuild]
  | some ps =>
    have hlist := agrees_params_list (E := E) (s := s.past [⟨.mark .parenOpen, opening⟩]
      (ps.tokens ++ ⟨.mark .parenClose, closing⟩ :: rest) s.table) ps rfl
    rw [iterate_stop (productive_commaStep .param)
      (commaStep_stop (by simp [State.current]))] at hlist
    refine (closedBy_present (fun _ => []) (parameters_current_ne ps rfl) hlist rfl).trans (.inl ?_)
    simp [Parameters.optionTokens, Parameters.optionBuild]

theorem Agrees.retype {β : Type} {r : EStateM.Result Diagnostic State β} {id : Int}
    {type : Datatype} {f : Unit → Parser β}
    (h : Agrees E (f () (s.past [] s.ahead (s.table.retype id type))) r) :
    Agrees E (((modify fun s => { s with table := s.table.retype id type } : Parser Unit) >>= f) s)
      r := h

theorem agrees_function {f : Function} {rest : List Token}
    (hfit : FitsClause E room f.body) (helse : f.body.NearestElse)
    (hs : s.ahead = f.tokens ++ rest) :
    Agrees E (function room s)
      (.ok (f.build s.table).1 (s.past f.tokens rest (f.build s.table).2)) := by
  have hbody := acceptsClause f.body helse room hfit
  have hblock := (Orderly.expression room).block (.statement room)
  have hahead : s.ahead = ⟨.keyword .fnKw, f.loc⟩ :: ⟨.identifier f.name, f.nameLoc⟩ ::
      ⟨.mark .parenOpen, f.opening⟩ :: (Parameters.optionTokens f.params ++
        ⟨.mark .parenClose, f.closing⟩ :: ⟨.mark .colon, f.colon⟩ :: f.result.token ::
          ⟨.mark .braceOpen, f.bodyOpening⟩ ::
            (f.body.tokens ++ ⟨.mark .braceClose, f.bodyClosing⟩ :: rest)) := by
    rw [hs]
    simp [Function.tokens]
  refine .current hahead (.advance hahead (.identifier rfl (.enter ?_)))
  refine (agrees_params rfl).bind (fun _ => (Orderly.expect _).bind fun _ =>
    Orderly.datatype.bind fun _ => (Orderly.retype _ _).bind fun _ => hblock.bind fun _ =>
      .pure _) (.expect rfl (.datatype rfl ?_))
  refine .retype ((agrees_block hbody rfl).bind (fun _ => .pure _) (.pure ?_))
  simp [Function.tokens, Function.build]

theorem agrees_declaration {d : Declaration} {rest : List Token}
    (hfit : Within E room d.depth d.tokens) (helse : d.NearestElse)
    (hs : s.ahead = d.tokens ++ rest)
    (hnext : following rest .endOfFile ≠ .keyword .elseKw) :
    Agrees E (declaration room s)
      (.ok (d.build s.table).1 (s.past d.tokens rest (d.build s.table).2)) := by
  cases d with
  | function f =>
    have hbody : FitsClause E room f.body := hfit.of_le id fun t ht => by
      simp [Declaration.tokens, Function.tokens, ht]
    refine .current hs ?_
    rw [if_pos rfl]
    exact (agrees_function hbody helse hs).bind (fun _ => .pure _) (.refl _)
  | entry c =>
    have hne : s.current.lexeme ≠ .keyword .fnKw := current_ne_of_entry c hs rfl rfl
    rw [declaration, current_bind, if_neg hne]
    exact acceptsClause c helse room hfit s rest hs hnext

/-- Neither the end of the file nor an `else` nor a closing brace starts a declaration. -/
theorem declaration_head (d : Declaration) :
    ∃ t ts, d.tokens = t :: ts ∧ t.lexeme ≠ .endOfFile ∧ t.lexeme ≠ .keyword .elseKw ∧
      t.lexeme ≠ .mark .braceClose := by
  cases d with
  | function f => exact ⟨_, _, rfl, by simp, by simp, by simp⟩
  | entry c =>
    obtain ⟨t, ts, htokens, ht⟩ := c.entry_head
    have hne {l : Lexeme} (htype : l.isType = false) (hstart : l.startsStatement = false) :
        t.lexeme ≠ l := by
      rintro rfl
      simp [htype, hstart] at ht
    exact ⟨t, ts, htokens, hne rfl rfl, hne rfl rfl, hne rfl rfl⟩

/-- Every derivation within the limits in which each `else` belongs to the nearest open
conditional is what its tokens are read as, behind the declarations that are read already. -/
theorem agrees_iterate (m : Module) (body : List Stmt) {rest : List Token} :
    Within E room m.depth m.tokens → m.NearestElse → s.ahead = m.tokens ++ rest →
    following rest .endOfFile ≠ .keyword .elseKw →
    Agrees E (iterate (declarationStep room) body s)
      (iterate (declarationStep room) (body ++ (m.build s.table).1)
        (s.past m.tokens rest (m.build s.table).2)) := by
  induction m generalizing rest with
  | nothing =>
    intro _ _ hs _
    have hself : s.past Module.nothing.tokens rest s.table = s := State.past_nil hs
    exact .inl (by rw [Module.build, hself, List.append_nil])
  | another before last ih =>
    rintro hfit ⟨helse, helse'⟩ hs hnext
    have hahead : s.ahead = before.tokens ++ (last.tokens ++ rest) := by
      rw [hs]
      simp [Module.tokens]
    have hbefore : Within E room before.depth before.tokens :=
      hfit.of_le (fun h => (Nat.max_le.1 h).1) fun t ht => by simp [Module.tokens, ht]
    have hlast : Within E room last.depth last.tokens :=
      hfit.of_le (fun h => (Nat.max_le.1 h).2) fun t ht => by simp [Module.tokens, ht]
    generalize hs₁ : s.past before.tokens (last.tokens ++ rest) (before.build s.table).2 = s₁ at *
    have hahead₁ : s₁.ahead = last.tokens ++ rest := by
      rw [← hs₁]
      rfl
    have htable₁ : s₁.table = (before.build s.table).2 := by
      rw [← hs₁]
      rfl
    obtain ⟨t, ts, htokens, hend, helseNext, -⟩ := declaration_head last
    have hcurrent : s₁.current = t := State.current_eq (by rw [hahead₁, htokens, List.cons_append])
    refine (ih hbefore helse hahead (by simpa [htokens] using helseNext)).trans ?_
    rw [hs₁, (productive_declarationStep room).iterate_eq]
    rcases agrees_declaration hlast helse' hahead₁ hnext with hrun | ⟨d, hd, hcode⟩
    · rw [bind_of_ok (declarationStep_of_ok _ (by rwa [hcurrent]) hrun), htable₁, ← hs₁,
        State.past_past, List.append_assoc]
      exact .refl _
    · exact .inr ⟨d, mem_diagnostics_bind (.iterateAfter (.declarationStep room) _)
        (mem_diagnostics_declarationStep _ (by rwa [hcurrent]) hd), hcode⟩

theorem agrees_declarations_all (m : Module) (hfit : Within E room m.depth m.tokens)
    (helse : m.NearestElse) (hs : s.ahead = m.tokens) :
    Agrees E (declarations room s)
      (.ok (m.build s.table).1 (s.past m.tokens [] (m.build s.table).2)) := by
  have hrun : Agrees E (declarations room s) (iterate (declarationStep room) (m.build s.table).1
      (s.past m.tokens [] (m.build s.table).2)) :=
    agrees_iterate m [] hfit helse (hs.trans (List.append_nil _).symm) (by simp)
  rwa [iterate_stop (productive_declarationStep room) (declarationStep_of_end _ rfl)] at hrun

end Ember.Parser
