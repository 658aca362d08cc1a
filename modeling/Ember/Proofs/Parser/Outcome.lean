import Ember.Proofs.Grammar.Expression
import Ember.Proofs.Parser.Loops

namespace Ember

/-- The lexemes that stand in for what a text leaves out at its end. -/
def Lexeme.isFiller : Lexeme → Bool
  | .identifier name => name == "x"
  | .keyword _ | .mark _ => true
  | _ => false

namespace Parser

variable {α β : Type}

/-- The lexeme of the first token, else the given one. -/
def following : List Token → Lexeme → Lexeme
  | [], l => l
  | t :: _, _ => t.lexeme

@[simp] theorem following_nil (l : Lexeme) : following [] l = l := rfl

@[simp] theorem following_cons (t : Token) (rest : List Token) (l : Lexeme) :
    following (t :: rest) l = t.lexeme := rfl

@[simp] theorem following_append (a b : List Token) (l : Lexeme) :
    following (a ++ b) l = following a (following b l) := by
  cases a <;> rfl

theorem following_ne {ts : List Token} {l l' : Lexeme} (h : (ts.map (·.lexeme)).head? ≠ some l')
    (hl : l ≠ l') : following ts l ≠ l' := by
  cases ts with
  | nil => exact hl
  | cons t rest => simpa using h

theorem current_lexeme (s : State) : s.current.lexeme = following s.ahead .endOfFile := by
  unfold State.current
  cases s.ahead <;> rfl

namespace State

/-- The state after the tokens `taken`, of which `rest` are left. -/
def past (s : State) (taken rest : List Token) (table : SymbolTable) : State :=
  { s with ahead := rest, last := taken.foldl (fun _ t => some t.loc) s.last, table }

/-- The state with more tokens behind those ahead, and the end of the file behind these. -/
def extend (s : State) (more : List Token) (finish : Location) : State :=
  { s with ahead := s.ahead ++ more, finish }

@[simp] theorem past_past (s : State) (a b rest rest' : List Token) (t t' : SymbolTable) :
    (s.past a rest t).past b rest' t' = s.past (a ++ b) rest' t' := by
  simp [past]

@[simp] theorem ahead_past (s : State) (a rest : List Token) (t : SymbolTable) :
    (s.past a rest t).ahead = rest := rfl

@[simp] theorem table_past (s : State) (a rest : List Token) (t : SymbolTable) :
    (s.past a rest t).table = t := rfl

@[simp] theorem report_past (s : State) (a rest : List Token) (t : SymbolTable) :
    (s.past a rest t).report = s.report := rfl

theorem past_nil {s : State} {rest : List Token} (h : s.ahead = rest) :
    s.past [] rest s.table = s := by
  subst h
  rfl

theorem advanced_eq {s : State} {t : Token} {rest : List Token} (h : s.ahead = t :: rest) :
    s.advanced = s.past [t] rest s.table := by
  unfold advanced
  rw [h]
  rfl

theorem current_eq {s : State} {t : Token} {rest : List Token} (h : s.ahead = t :: rest) :
    s.current = t := by
  unfold current
  rw [h]

theorem ahead_extend {s : State} {t : Token} {rest : List Token} (h : s.ahead = t :: rest)
    (more : List Token) (finish : Location) :
    (s.extend more finish).ahead = t :: (rest ++ more) := by
  simp [extend, h]

@[simp] theorem table_extend (s : State) (more : List Token) (finish : Location) :
    (s.extend more finish).table = s.table := rfl

theorem extend_nil (s : State) : s.extend [] s.finish = s := by
  simp [extend]

theorem extend_past {s : State} {taken rest : List Token} (table : SymbolTable)
    (more : List Token) (finish : Location) :
    (s.extend more finish).past taken (rest ++ more) table =
      (s.past taken rest table).extend more finish := rfl

end State

/-- Everything that a run of a parser has reported at its end. -/
def diagnostics : EStateM.Result Diagnostic State α → Report
  | .ok _ s => s.report
  | .error d s => s.report ++ [d]

/-- What is noted is still there when a parser has gone on. -/
theorem Orderly.mem_diagnostics {p : Parser α} (h : Orderly p) {s : State} {d : Diagnostic}
    (hd : d ∈ s.report) : d ∈ diagnostics (p s) := by
  have hmem := (h s).2.subset hd
  cases hs : p s with
  | ok a s' =>
    rw [hs] at hmem
    exact hmem
  | error e s' =>
    rw [hs] at hmem
    exact List.mem_append_left _ hmem

theorem mem_diagnostics_bind {p : Parser α} {f : α → Parser β} (hf : ∀ a, Orderly (f a))
    {s : State} {d : Diagnostic} (hd : d ∈ diagnostics (p s)) :
    d ∈ diagnostics ((p >>= f) s) := by
  cases hs : p s with
  | ok a s' =>
    rw [hs] at hd
    rw [bind_of_ok hs]
    exact (hf a).mem_diagnostics hd
  | error e s' =>
    rw [hs] at hd
    rwa [bind_of_error hs]

/-- An entry that is not read leaves its diagnostics behind. -/
theorem mem_diagnostics_entryStep {expr : Parser Expr} {stmt : Parser Stmt} {s : State}
    {d : Diagnostic} (body : List Stmt)
    (h : ¬(s.current.lexeme = .mark .braceClose ∨ s.current.lexeme = .endOfFile))
    (hd : d ∈ diagnostics (entry expr stmt s)) : d ∈ diagnostics (entryStep expr stmt body s) := by
  cases hs : entry expr stmt s with
  | ok stmts s' =>
    rw [hs] at hd
    rwa [entryStep_of_ok body h hs]
  | error e s' =>
    rw [hs] at hd
    rwa [entryStep_of_error body h hs]

theorem mem_diagnostics_declarationStep {room : Nat} {s : State} {d : Diagnostic} (body : List Stmt)
    (h : s.current.lexeme ≠ .endOfFile) (hd : d ∈ diagnostics (declaration room s)) :
    d ∈ diagnostics (declarationStep room body s) := by
  cases hs : declaration room s with
  | ok stmts s' =>
    rw [hs] at hd
    rwa [declarationStep_of_ok body h hs]
  | error e s' =>
    rw [hs] at hd
    rwa [declarationStep_of_error body h hs]

/-- What a parser is to read: with so many levels to nest and from a table, which tokens,
before which lexeme, give which value and which table. -/
abbrev Language (α : Type) := Nat → SymbolTable → List Token → Lexeme → α → SymbolTable → Prop

namespace Language

/-- Texts of one language with texts of another behind them. -/
def bind (L : Language α) (K : α → Language β) : Language β :=
  fun room t ts next b t'' => ∃ ts₁ ts₂ a t', ts = ts₁ ++ ts₂ ∧
    L room t ts₁ (following ts₂ next) a t' ∧ K a room t' ts₂ next b t''

/-- More levels allow more, and so does every lexeme behind but an `else`. -/
def Widens (L : Language α) : Prop :=
  ∀ ⦃room t ts next next' a t'⦄, next' = next ∨ next' ≠ .keyword .elseKw →
    L room t ts next a t' → L (room + 1) t ts next' a t'

/-- One more level is enough for the given lexemes to be a text of the language. -/
structure CompletedBy (L : Language α) (room : Nat) (completion : List Lexeme) : Prop where
  fillers : ∀ l ∈ completion, l.isFiller
  head : completion.head? ≠ some (.keyword .elseKw)
  completes : ∀ us t next, us.map (·.lexeme) = completion → next ≠ .keyword .elseKw →
    ∃ a t', L (room + 1) t us next a t'

theorem Widens.bind {L : Language α} {K : α → Language β} (hL : L.Widens)
    (hK : ∀ a, (K a).Widens) : (L.bind K).Widens := by
  rintro room t ts next next' b t'' hnext ⟨ts₁, ts₂, a, t', rfl, hl, hk⟩
  refine ⟨ts₁, ts₂, a, t', rfl, hL ?_ hl, hK a hnext hk⟩
  cases ts₂ with
  | nil => exact hnext
  | cons u us => exact .inl rfl

theorem head?_append_ne {ls ls' : List Lexeme} (h : ls.head? ≠ some (.keyword .elseKw))
    (h' : ls'.head? ≠ some (.keyword .elseKw)) :
    (ls ++ ls').head? ≠ some (.keyword .elseKw) := by
  cases ls with
  | nil => exact h'
  | cons l ls => exact h

theorem CompletedBy.bind {L : Language α} {K : α → Language β} {room : Nat}
    {ls ls' : List Lexeme} (hL : L.CompletedBy room ls) (hK : ∀ a, (K a).CompletedBy room ls') :
    (L.bind K).CompletedBy room (ls ++ ls') := by
  obtain ⟨a, _, _⟩ := hL.completes (ls.map (⟨·, .none⟩)) .empty .endOfFile
    (by simp [Function.comp_def]) (by simp)
  refine ⟨?_, head?_append_ne hL.head (hK a).head, ?_⟩
  · intro l hl
    rcases List.mem_append.1 hl with hl | hl
    · exact hL.fillers l hl
    · exact (hK a).fillers l hl
  · intro us t next hus hnext
    obtain ⟨us₁, us₂, rfl, rfl, rfl⟩ := List.map_eq_append_iff.1 hus
    obtain ⟨a, t', hl⟩ := hL.completes us₁ t _ rfl (following_ne (hK a).head hnext)
    obtain ⟨b, t'', hk⟩ := (hK a).completes us₂ t' next rfl hnext
    exact ⟨b, t'', us₁, us₂, a, t', rfl, hl, hk⟩

end Language

/-- What a run of a parser for the language `L` comes to, at a state whose tokens are all
lexemes of the source. -/
inductive Outcome (L : Language α) (room : Nat) (p : Parser α) (s : State) : Prop where
  /-- A text of the language is read. Unless it is the last one, more tokens behind it change
  nothing. -/
  | read (ts rest : List Token) (a : α) (table : SymbolTable) (ahead : s.ahead = ts ++ rest)
      (reads : L room s.table ts (following rest .endOfFile) a table)
      (inRange : ∀ t ∈ ts, t.InRange) (run : p s = .ok a (s.past ts rest table))
      (steady : rest ≠ [] → ∀ more finish,
        p (s.extend more finish) = .ok a ((s.past ts rest table).extend more finish))
  /-- The tokens end too early: with the given lexemes behind them they are a text of the
  language. -/
  | stuck (d : Diagnostic) (s' : State) (completion : List Lexeme) (run : p s = .error d s')
      (incomplete : d.isIncomplete) (noted : ∀ e ∈ s'.report, e ∈ s.report ∨ e.isIncomplete)
      (atEnd : s'.ahead = []) (inRange : ∀ t ∈ s.ahead, t.InRange)
      (fillers : ∀ l ∈ completion, l.isFiller)
      (head : completion.head? ≠ some (.keyword .elseKw))
      (completes : ∀ us next, us.map (·.lexeme) = completion → next ≠ .keyword .elseKw →
        ∃ a table, L (room + 1) s.table (s.ahead ++ us) next a table)
  /-- The text nests too deep. -/
  | deep (reports : ∃ d ∈ diagnostics (p s), d.code = .nestingTooDeep)
  /-- No tokens behind those ahead can mend the text. -/
  | broken (some : s.ahead ≠ []) (reports : ∀ more finish,
      ∃ d ∈ diagnostics (p (s.extend more finish)), d.isIncomplete = false)

/-- Every token is a lexeme of the source, not the end of the file. -/
def State.Real (s : State) : Prop := ∀ t ∈ s.ahead, t.lexeme ≠ .endOfFile

theorem State.Real.past {s : State} (h : s.Real) {taken rest : List Token}
    (hs : s.ahead = taken ++ rest) (table : SymbolTable) : (s.past taken rest table).Real := by
  intro t ht
  exact h t (by rw [hs]; exact List.mem_append_right _ ht)

/-- The parser reads the language `L`, and the given lexemes are a text of it. -/
structure Recognizes (L : Language α) (room : Nat) (completion : List Lexeme) (p : Parser α) :
    Prop where
  orderly : Orderly p
  widens : L.Widens
  completed : L.CompletedBy room completion
  outcome : ∀ s : State, s.Real → Outcome L room p s

namespace Outcome

variable {L : Language α} {K : α → Language β} {room : Nat} {s : State}

/-- What a run comes to that reads a text and goes on behind it as another run does. -/
theorem behind {p q : Parser β} {ts rest : List Token} {a : α} {table : SymbolTable}
    (hL : L.Widens) (ahead : s.ahead = ts ++ rest)
    (reads : L room s.table ts (following rest .endOfFile) a table)
    (inRange : ∀ t ∈ ts, t.InRange) (run : p s = q (s.past ts rest table))
    (steady : rest ≠ [] → ∀ more finish,
      p (s.extend more finish) = q ((s.past ts rest table).extend more finish))
    (hq : Outcome (K a) room q (s.past ts rest table)) : Outcome (L.bind K) room p s := by
  cases hq with
  | deep reports => exact .deep (by rwa [run])
  | broken some reports =>
    refine .broken (by rw [ahead]; exact List.append_ne_nil_of_right_ne_nil ts some)
      fun more finish => ?_
    rw [steady some more finish]
    exact reports more finish
  | stuck d s' completion run' incomplete noted atEnd inRange' fillers head completes =>
    refine .stuck d s' completion (run.trans run') incomplete noted atEnd ?_ fillers head ?_
    · intro t ht
      rw [ahead] at ht
      rcases List.mem_append.1 ht with ht | ht
      · exact inRange t ht
      · exact inRange' t ht
    · intro us next hus hnext
      obtain ⟨b, t'', hk⟩ := completes us next hus hnext
      refine ⟨b, t'', ts, rest ++ us, a, table, by rw [ahead, List.append_assoc],
        hL ?_ reads, hk⟩
      -- Only a text that reaches the end of the file is followed by the completion.
      cases rest with
      | nil => exact .inr (following_ne (hus ▸ head) hnext)
      | cons t rest => exact .inl rfl
  | read ts' rest' b table' ahead' reads' inRange' run' steady' =>
    rw [State.ahead_past] at ahead'
    subst ahead'
    refine .read (ts ++ ts') rest' b table' (by rw [ahead, List.append_assoc])
      ⟨ts, ts', a, table, rfl, by rwa [following_append] at reads, reads'⟩ ?_ ?_ ?_
    · intro t ht
      rcases List.mem_append.1 ht with ht | ht
      · exact inRange t ht
      · exact inRange' t ht
    · rw [run, run', State.past_past]
    · intro hrest more finish
      rw [steady (List.append_ne_nil_of_right_ne_nil ts' hrest) more finish,
        steady' hrest more finish, State.past_past]

/-- The parts of a text are read one after the other. -/
theorem bind {p : Parser α} {f : α → Parser β} {ls : List Lexeme} (hp : Outcome L room p s)
    (hL : L.Widens) (hf : ∀ a, Orderly (f a)) (hK : ∀ a, (K a).CompletedBy room ls)
    (hnext : ∀ ts rest a table, s.ahead = ts ++ rest → p s = .ok a (s.past ts rest table) →
      Outcome (K a) room (f a) (s.past ts rest table)) :
    Outcome (L.bind K) room (p >>= f) s := by
  cases hp with
  | deep reports =>
    obtain ⟨d, hd, hcode⟩ := reports
    exact .deep ⟨d, mem_diagnostics_bind hf hd, hcode⟩
  | broken some reports =>
    refine .broken some fun more finish => ?_
    obtain ⟨d, hd, hcode⟩ := reports more finish
    exact ⟨d, mem_diagnostics_bind hf hd, hcode⟩
  | stuck d s' completion run incomplete noted atEnd inRange fillers head completes =>
    obtain ⟨a, _, _⟩ := completes (completion.map (⟨·, .none⟩)) .endOfFile
      (by simp [Function.comp_def]) (by simp)
    refine .stuck d s' (completion ++ ls) (bind_of_error run) incomplete noted atEnd inRange
      ?_ (Language.head?_append_ne head (hK a).head) ?_
    · intro l hl
      rcases List.mem_append.1 hl with hl | hl
      · exact fillers l hl
      · exact (hK a).fillers l hl
    · intro us next hus hnext
      obtain ⟨us₁, us₂, rfl, rfl, rfl⟩ := List.map_eq_append_iff.1 hus
      obtain ⟨a, t', hl⟩ := completes us₁ _ rfl (following_ne (hK a).head hnext)
      obtain ⟨b, t'', hk⟩ := (hK a).completes us₂ t' next rfl hnext
      exact ⟨b, t'', s.ahead ++ us₁, us₂, a, t', (List.append_assoc ..).symm, hl, hk⟩
  | read ts rest a table ahead reads inRange run steady =>
    exact .behind hL ahead reads inRange (bind_of_ok run)
      (fun hrest more finish => bind_of_ok (steady hrest more finish))
      (hnext ts rest a table ahead run)

end Outcome

end Parser

end Ember
