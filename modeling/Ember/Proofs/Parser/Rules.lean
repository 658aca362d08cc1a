import Ember.Proofs.Grammar.Statement
import Ember.Proofs.Parser.Outcome

namespace Ember.Parser

variable {α β : Type}

namespace Language

/-- The empty text, for a fixed value. -/
def nothing (a : α) : Language α := fun _ t ts _ b t' => ts = [] ∧ b = a ∧ t' = t

/-- One token, which is given. -/
def given (token : Token) : Language Unit := fun _ t ts _ _ t' => ts = [token] ∧ t' = t

/-- One token of a given lexeme, for its place. -/
def lexeme (l : Lexeme) : Language Location := fun _ t ts _ loc t' => ts = [⟨l, loc⟩] ∧ t' = t

/-- A name with its place. -/
def name : Language (String × Location) :=
  fun _ t ts _ a t' => ts = [⟨.identifier a.1, a.2⟩] ∧ t' = t

/-- The keyword of a type. -/
def typeName : Language Datatype :=
  fun _ t ts _ a t' => ∃ n : Grammar.TypeName, ts = [n.token] ∧ a = n.type ∧ t' = t

/-- The empty text, for a change of the table. -/
def update (change : SymbolTable → α × SymbolTable) : Language α :=
  fun _ t ts _ a t' => ts = [] ∧ (a, t') = change t

/-- The texts that one more level allows. -/
abbrev deeper (L : Language α) : Language α := fun room => L (room + 1)

/-- The texts of two languages. -/
def either (L M : Language α) : Language α :=
  fun room t ts next a t' => L room t ts next a t' ∨ M room t ts next a t'

/-- The texts of a language behind which no `else` comes next. -/
def notElse (L : Language α) : Language α :=
  fun room t ts next a t' => following ts next ≠ .keyword .elseKw ∧ L room t ts next a t'

/-- A language that asks neither for levels nor for what is behind. -/
theorem widens_of_forall {L : Language α}
    (h : ∀ room room' t ts next next' a t', L room t ts next a t' → L room' t ts next' a t') :
    L.Widens :=
  fun _ _ _ _ _ _ _ _ hl => h _ _ _ _ _ _ _ _ hl

theorem widens_nothing (a : α) : (nothing a).Widens :=
  widens_of_forall fun _ _ _ _ _ _ _ _ h => h

theorem widens_given (token : Token) : (given token).Widens :=
  widens_of_forall fun _ _ _ _ _ _ _ _ h => h

theorem widens_lexeme (l : Lexeme) : (lexeme l).Widens :=
  widens_of_forall fun _ _ _ _ _ _ _ _ h => h

theorem widens_name : name.Widens := widens_of_forall fun _ _ _ _ _ _ _ _ h => h

theorem widens_typeName : typeName.Widens := widens_of_forall fun _ _ _ _ _ _ _ _ h => h

theorem widens_update (change : SymbolTable → α × SymbolTable) : (update change).Widens :=
  widens_of_forall fun _ _ _ _ _ _ _ _ h => h

theorem Widens.either {L M : Language α} (hL : L.Widens) (hM : M.Widens) :
    (L.either M).Widens := by
  rintro room t ts next next' a t' hnext (h | h)
  · exact .inl (hL hnext h)
  · exact .inr (hM hnext h)

theorem Widens.notElse {L : Language α} (hL : L.Widens) : L.notElse.Widens := by
  rintro room t ts next next' a t' hnext ⟨hne, h⟩
  refine ⟨?_, hL hnext h⟩
  cases ts with
  | nil =>
    rcases hnext with rfl | hnext
    · exact hne
    · exact hnext
  | cons u us => exact hne

theorem CompletedBy.mono {L M : Language α} {room : Nat} {ls : List Lexeme}
    (h : L.CompletedBy room ls)
    (hLM : ∀ {room t ts next a t'}, L room t ts next a t' → M room t ts next a t') :
    M.CompletedBy room ls where
  fillers := h.fillers
  head := h.head
  completes us t next hus hnext :=
    let ⟨a, t', hl⟩ := h.completes us t next hus hnext
    ⟨a, t', hLM hl⟩

end Language

theorem State.current_extend {s : State} (h : s.ahead ≠ []) (more : List Token)
    (finish : Location) : (s.extend more finish).current = s.current := by
  cases hs : s.ahead with
  | nil => exact absurd hs h
  | cons t rest => rw [current_eq hs, current_eq (ahead_extend hs more finish)]

namespace Outcome

variable {L M : Language α} {K : α → Language β} {room : Nat} {s : State} {p q : Parser α}

theorem mono (h : Outcome L room p s)
    (hLM : ∀ {room t ts next a t'}, L room t ts next a t' → M room t ts next a t') :
    Outcome M room p s := by
  cases h with
  | read ts rest a table ahead reads inRange run steady =>
    exact .read ts rest a table ahead (hLM reads) inRange run steady
  | stuck d s' completion run incomplete noted atEnd inRange fillers head completes =>
    refine .stuck d s' completion run incomplete noted atEnd inRange fillers head ?_
    intro us next hus hnext
    obtain ⟨a, t', hl⟩ := completes us next hus hnext
    exact ⟨a, t', hLM hl⟩
  | deep reports => exact .deep reports
  | broken some reports => exact .broken some reports

/-- Parsers that do the same here, and with more tokens behind those ahead, come to the
same. -/
theorem congr (h : Outcome L room q s) (hs : p s = q s)
    (hmore : s.ahead ≠ [] → ∀ more finish,
      p (s.extend more finish) = q (s.extend more finish)) : Outcome L room p s := by
  cases h with
  | read ts rest a table ahead reads inRange run steady =>
    refine .read ts rest a table ahead reads inRange (hs.trans run) fun hrest more finish => ?_
    rw [hmore (by rw [ahead]; exact List.append_ne_nil_of_right_ne_nil ts hrest)]
    exact steady hrest more finish
  | stuck d s' completion run incomplete noted atEnd inRange fillers head completes =>
    exact .stuck d s' completion (hs.trans run) incomplete noted atEnd inRange fillers head
      completes
  | deep reports => exact .deep (by rwa [hs])
  | broken some reports =>
    refine .broken some fun more finish => ?_
    rw [hmore some]
    exact reports more finish

theorem current_bind {f : Token → Parser α} (h : Outcome L room (f s.current) s) :
    Outcome L room (current >>= f) s := by
  refine h.congr rfl fun hs more finish => ?_
  rw [Parser.current_bind, State.current_extend hs]

/-- A lexeme that is not there is not accepted. -/
theorem accept_bind_of_ne {l : Lexeme} {f : Bool → Parser α} (hl : s.current.lexeme ≠ l)
    (h : Outcome L room (f false) s) : Outcome L room (accept l >>= f) s := by
  refine h.congr (bind_of_ok (accept_of_ne hl)) fun hs more finish => ?_
  exact bind_of_ok (accept_of_ne (by rwa [State.current_extend hs]))

theorem advance {t : Token} {rest : List Token} (hs : s.ahead = t :: rest) (ht : t.InRange) :
    Outcome (.given t) room advance s := by
  refine .read [t] rest () s.table hs ⟨rfl, rfl⟩ (by simpa using ht) ?_ fun _ more finish => ?_
  · rw [← State.advanced_eq hs]
    rfl
  · rw [← State.extend_past, ← State.table_extend,
      ← State.advanced_eq (State.ahead_extend hs more finish)]
    rfl

/-- A lexeme that is there is accepted. -/
theorem accept_bind_of_eq {l : Lexeme} {f : Bool → Parser α} (hs : s.ahead ≠ [])
    (hl : s.current.lexeme = l) (h : Outcome L room (Parser.advance >>= fun _ => f true) s) :
    Outcome L room (accept l >>= f) s := by
  refine h.congr (bind_of_ok (accept_of_eq hl)) fun _ more finish => ?_
  exact bind_of_ok (accept_of_eq (by rwa [State.current_extend hs]))

/-- The parts of a text are read one after the other, the second by a parser that reads its
language anywhere. -/
theorem andThen {f : α → Parser β} {ls : List Lexeme} (hp : Outcome L room p s)
    (hL : L.Widens) (hreal : s.Real) (hf : ∀ a, Recognizes (K a) room ls (f a)) :
    Outcome (L.bind K) room (p >>= f) s :=
  hp.bind hL (fun a => (hf a).orderly) (fun a => (hf a).completed) fun _ _ a table hs _ =>
    (hf a).outcome _ (hreal.past hs table)

/-- Where no `else` comes next, none does in a completed text. -/
theorem notElse (h : Outcome L room p s) (hs : s.current.lexeme ≠ .keyword .elseKw) :
    Outcome L.notElse room p s := by
  rw [current_lexeme] at hs
  cases h with
  | read ts rest a table ahead reads inRange run steady =>
    rw [ahead, following_append] at hs
    exact .read ts rest a table ahead ⟨hs, reads⟩ inRange run steady
  | stuck d s' completion run incomplete noted atEnd inRange fillers head completes =>
    refine .stuck d s' completion run incomplete noted atEnd inRange fillers head ?_
    intro us next hus hnext
    obtain ⟨a, t', hl⟩ := completes us next hus hnext
    refine ⟨a, t', ?_, hl⟩
    have hus : following us next ≠ .keyword .elseKw := following_ne (hus ▸ head) hnext
    rw [following_append]
    cases hahead : s.ahead with
    | nil => exact hus
    | cons t rest => rwa [hahead] at hs
  | deep reports => exact .deep reports
  | broken some reports => exact .broken some reports

end Outcome

namespace Recognizes

variable {L M : Language α} {K : α → Language β} {room : Nat} {ls ls' : List Lexeme}
  {p : Parser α}

theorem bind {f : α → Parser β} (hp : Recognizes L room ls p)
    (hf : ∀ a, Recognizes (K a) room ls' (f a)) :
    Recognizes (L.bind K) room (ls ++ ls') (p >>= f) where
  orderly := hp.orderly.bind fun a => (hf a).orderly
  widens := hp.widens.bind fun a => (hf a).widens
  completed := hp.completed.bind fun a => (hf a).completed
  outcome s hs := (hp.outcome s hs).andThen hp.widens hs hf

theorem mono (h : Recognizes L room ls p) (hM : M.Widens)
    (hLM : ∀ {room t ts next a t'}, L room t ts next a t' → M room t ts next a t') :
    Recognizes M room ls p where
  orderly := h.orderly
  widens := hM
  completed := h.completed.mono hLM
  outcome s hs := (h.outcome s hs).mono hLM

theorem nothing (a : α) : Recognizes (.nothing a) room [] (pure a) where
  orderly := .pure a
  widens := Language.widens_nothing a
  completed := ⟨by simp, by simp, fun us t next hus _ => ⟨a, t, by simpa using hus, rfl, rfl⟩⟩
  outcome s _ := by
    refine .read [] s.ahead a s.table rfl ⟨rfl, rfl, rfl⟩ (by simp) ?_ fun _ more finish => ?_
    · rw [State.past_nil rfl]
      rfl
    · rw [State.past_nil rfl]
      rfl

theorem update {change : SymbolTable → α × SymbolTable}
    (hp : ∀ s, p s = .ok (change s.table).1 { s with table := (change s.table).2 }) :
    Recognizes (.update change) room [] p where
  orderly s := by
    rw [hp]
    exact ⟨List.suffix_refl _, List.prefix_refl _⟩
  widens := Language.widens_update change
  completed := ⟨by simp, by simp, fun us t next hus _ => ⟨_, _, by simpa using hus, rfl⟩⟩
  outcome s _ := .read [] s.ahead _ _ rfl ⟨rfl, rfl⟩ (by simp) (hp s) fun _ more finish => hp _

theorem enter (name : String) (type : Datatype) :
    Recognizes (.update fun t => (((t.add name type).1 : Int), (t.add name type).2)) room []
      (enter name type) :=
  update fun _ => rfl

theorem retype (id : Int) (type : Datatype) :
    Recognizes (.update fun t => ((), t.retype id type)) room []
      (modify fun s => { s with table := s.table.retype id type }) :=
  update fun _ => rfl

/-- A parser of single tokens takes the token ahead, or fails there without taking it. -/
theorem ofToken (take : Token → Option α) {l : Lexeme} (hL : L.Widens)
    (hcompleted : L.CompletedBy room [l])
    (hreads : ∀ room t tok next a, take tok = some a → L room t [tok] next a t)
    (hrange : ∀ tok a, take tok = some a → tok.InRange)
    (hend : ∀ loc, take ⟨.endOfFile, loc⟩ = none)
    (hok : ∀ s a, take s.current = some a → p s = .ok a s.advanced)
    (hfail : ∀ s, take s.current = none →
      ∃ d, p s = .error d s ∧ d.isIncomplete = decide (s.current.lexeme = .endOfFile))
    (horder : Orderly p) : Recognizes L room [l] p where
  orderly := horder
  widens := hL
  completed := hcompleted
  outcome s hreal := by
    cases hs : s.ahead with
    | nil =>
      have hcurrent : s.current = ⟨.endOfFile, s.finish⟩ := by
        rw [State.current, hs]
      obtain ⟨d, hd, hincomplete⟩ := hfail s (by rw [hcurrent]; exact hend _)
      refine .stuck d s [l] hd (by rw [hincomplete, hcurrent]; rfl) (fun e he => .inl he) hs
        (by simp [hs]) hcompleted.fillers hcompleted.head fun us next hus hnext => ?_
      rw [hs]
      exact hcompleted.completes us s.table next hus hnext
    | cons t rest =>
      have hcurrent := State.current_eq hs
      have hmore : ∀ more finish, (s.extend more finish).current = t := fun more finish =>
        State.current_eq (State.ahead_extend hs more finish)
      cases ht : take t with
      | some a =>
        refine .read [t] rest a s.table hs (hreads _ _ _ _ _ ht) (by simpa using hrange t a ht)
          ?_ fun _ more finish => ?_
        · rw [hok s a (by rwa [hcurrent]), State.advanced_eq hs]
        · rw [hok _ a (by rwa [hmore]), State.advanced_eq (State.ahead_extend hs more finish)]
          rfl
      | none =>
        refine .broken (by simp [hs]) fun more finish => ?_
        obtain ⟨d, hd, hincomplete⟩ := hfail (s.extend more finish) (by rwa [hmore])
        refine ⟨d, by rw [hd]; simp [diagnostics], ?_⟩
        rw [hincomplete, hmore]
        exact decide_eq_false (hreal t (by simp [hs]))

end Recognizes

/-- A token of a lexeme without digits is in range. -/
theorem inRange_of_isFiller {t : Token} (h : t.lexeme.isFiller) : t.InRange := by
  intro digits hdigits
  rw [hdigits] at h
  cases h

theorem ne_endOfFile_of_isFiller {l : Lexeme} (h : l.isFiller) : l ≠ .endOfFile := by
  rintro rfl
  cases h

namespace Recognizes

variable {L M : Language α} {K : Language β} {room : Nat} {ls ls' : List Lexeme}

theorem expect {l : Lexeme} (hl : l.isFiller) (helse : l ≠ .keyword .elseKw) :
    Recognizes (.lexeme l) room [l] (expect l) := by
  refine ofToken (fun t => if t.lexeme = l then some t.loc else none)
    (Language.widens_lexeme l) ⟨by simpa using hl, by simpa using helse, ?_⟩ ?_ ?_ ?_ ?_ ?_
    (.expect l)
  · intro us t next hus _
    obtain ⟨u, rfl, rfl⟩ := List.map_eq_singleton_iff.1 hus
    exact ⟨u.loc, t, rfl, rfl⟩
  · intro room t tok next a h
    split at h
    · rename_i htok
      cases h
      exact ⟨by rw [← htok], rfl⟩
    · cases h
  · intro tok a h
    split at h
    · rename_i htok
      exact inRange_of_isFiller (by rwa [htok])
    · cases h
  · intro loc
    exact if_neg (ne_endOfFile_of_isFiller hl).symm
  · intro s a h
    split at h
    · rename_i hs
      cases h
      exact expect_of_eq hs
    · cases h
  · intro s h
    split at h
    · cases h
    · exact expect_of_ne ‹_›

theorem mark (m : Mark) :
    Recognizes (.lexeme (.mark m)) room [.mark m] (Parser.expect (.mark m)) :=
  expect rfl (by simp)

theorem identifier : Recognizes .name room [.identifier "x"] identifier := by
  refine ofToken
    (fun t => match t.lexeme with
      | .identifier name => some (name, t.loc)
      | _ => none)
    Language.widens_name ⟨by simp [Lexeme.isFiller], by simp, ?_⟩ ?_ ?_ ?_ ?_ ?_ .identifier
  · intro us t next hus _
    obtain ⟨u, rfl, hu⟩ := List.map_eq_singleton_iff.1 hus
    exact ⟨("x", u.loc), t, by rw [← hu], rfl⟩
  · intro room t tok next a h
    split at h
    · rename_i name htok
      cases h
      exact ⟨by rw [← htok], rfl⟩
    · cases h
  · intro tok a h digits hdigits
    simp [hdigits] at h
  · intro loc
    rfl
  · intro s a h
    split at h
    · rename_i name hs
      cases h
      exact identifier_of_eq hs
    · cases h
  · intro s h
    split at h
    · cases h
    · rename_i hs
      exact identifier_of_ne hs

theorem datatype : Recognizes .typeName room [.keyword .voidKw] datatype := by
  refine ofToken (fun t => t.lexeme.datatype?) Language.widens_typeName
    ⟨by simp [Lexeme.isFiller], by simp, ?_⟩ ?_ ?_ ?_ ?_ ?_ .datatype
  · intro us t next hus _
    obtain ⟨u, rfl, hu⟩ := List.map_eq_singleton_iff.1 hus
    exact ⟨.void, t, ⟨.voidKw, .void, u.loc, by decide⟩, by simp [Grammar.TypeName.token, ← hu], rfl,
      rfl⟩
  · intro room t tok next a h
    obtain ⟨lexeme, loc⟩ := tok
    cases lexeme with
    | keyword k => exact ⟨⟨k, a, loc, Grammar.mem_typeNames.2 h⟩, rfl, rfl, rfl⟩
    | endOfFile | identifier | integer | mark => cases h
  · intro tok a h digits hdigits
    simp [hdigits, Lexeme.datatype?] at h
  · intro loc
    rfl
  · intro s a h
    exact datatype_of_eq h
  · intro s h
    exact datatype_of_none h

/-- A part of a text that is there if a lexeme announces it. -/
theorem accept_bind {l : Lexeme} {f : Bool → Parser β} {M : Language β} (hl : l.isFiller)
    (htrue : Recognizes K room ls (f true)) (hfalse : Recognizes M room ls' (f false)) :
    Recognizes (((Language.lexeme l).bind fun _ => K).either M) room ls' (accept l >>= f) where
  orderly := (Orderly.accept l).bind fun b => by
    cases b with
    | true => exact htrue.orderly
    | false => exact hfalse.orderly
  widens := ((Language.widens_lexeme l).bind fun _ => htrue.widens).either hfalse.widens
  completed := hfalse.completed.mono .inr
  outcome s hreal := by
    by_cases hs : s.current.lexeme = l
    · cases hahead : s.ahead with
      | nil =>
        rw [current_lexeme, hahead] at hs
        exact absurd hs.symm (ne_endOfFile_of_isFiller hl)
      | cons t rest =>
        have ht : t.lexeme = l := by rwa [State.current_eq hahead] at hs
        refine .accept_bind_of_eq (by simp [hahead]) hs ?_
        refine ((Outcome.advance hahead (inRange_of_isFiller (by rwa [ht]))).andThen
          (Language.widens_given t) hreal fun _ => htrue).mono ?_
        rintro room t₀ ts next b t' ⟨ts₁, ts₂, a, t₁, rfl, ⟨rfl, rfl⟩, hk⟩
        exact .inl ⟨[t], ts₂, t.loc, t₁, rfl, ⟨by rw [← ht], rfl⟩, hk⟩
    · exact .accept_bind_of_ne hs ((hfalse.outcome s hreal).mono .inr)

end Recognizes

/-- What makes texts of `J` of the texts of `I` with the value `a` when it stands behind them. -/
def Language.remainder (I : Language α) (J : Language β) (a : α) : Language β :=
  fun room t ts next b t' => ∀ ⦃t₀ ts₀⦄, I room t₀ ts₀ (following ts next) a t →
    J room t₀ (ts₀ ++ ts) next b t'

/-- A step behind a text of `I` that adds something makes a longer text of `I`, and one that
adds nothing reads nothing. -/
structure Language.ExtendedBy (I : Language α) (S : α → Language (Option α)) : Prop where
  go : ∀ {room t₀ ts ts' next a t b t'}, I room t₀ ts (following ts' next) a t →
    S a room t ts' next (some b) t' → I room t₀ (ts ++ ts') next b t'
  stop : ∀ {room a t ts next t'}, S a room t ts next none t' → ts = [] ∧ t' = t

section Iterate

variable {I : Language α} {S : α → Language (Option α)} {room : Nat} {ls ls' : List Lexeme}
  {step : α → Parser (Option α)}

namespace Language

theorem remainder_nil {t : SymbolTable} {next : Lexeme} {a : α} :
    I.remainder I a room t [] next a t := by
  intro t₀ ts₀ hi
  simpa using hi

theorem completedBy_remainder (a : α) : (I.remainder I a).CompletedBy room [] := by
  refine ⟨by simp, by simp, fun us t next hus _ => ⟨a, t, ?_⟩⟩
  obtain rfl : us = [] := by simpa using hus
  exact remainder_nil

/-- What a repetition reads after a step: nothing, or what makes a longer text of `I`. -/
def afterStep (I : Language α) (a : α) (b : Option α) : Language α :=
  b.elim (nothing a) (I.remainder I)

theorem completedBy_afterStep (a : α) (b : Option α) : (I.afterStep a b).CompletedBy room [] := by
  cases b with
  | none => exact (Recognizes.nothing a).completed
  | some b => exact completedBy_remainder b

/-- What a step adds stands before what is read after it. -/
theorem ExtendedBy.remainder (hext : I.ExtendedBy S) {t t' t'' : SymbolTable} {ts ts' : List Token}
    {next : Lexeme} {a c : α} {b : Option α} (hs : S a room t ts (following ts' next) b t')
    (hafter : I.afterStep a b room t' ts' next c t'') :
    I.remainder I a room t (ts ++ ts') next c t'' := by
  intro t₀ ts₀ hi
  rw [following_append] at hi
  cases b with
  | none =>
    obtain ⟨rfl, rfl⟩ := hext.stop hs
    obtain ⟨rfl, rfl, rfl⟩ := hafter
    simpa using hi
  | some b => simpa using hafter (hext.go hi hs)

end Language

/-- What a repetition comes to behind a text of `I`. The induction is on the tokens that are
left. -/
theorem Outcome.iterate (hprod : Productive step) (hext : I.ExtendedBy S)
    (hstep : ∀ a, Recognizes (S a) room ls (step a)) (n : Nat) :
    ∀ (a : α) (s : State), s.Real → s.ahead.length < n →
      Outcome (I.remainder I a) room (Parser.iterate step a) s := by
  induction n with
  | zero => intro _ _ _ h; omega
  | succ n ih =>
    intro a s hreal hn
    have hread : Outcome ((S a).bind (I.afterStep a)) room (step a >>= iterateAfter step a) s := by
      refine ((hstep a).outcome s hreal).bind (hstep a).widens
        (Orderly.iterateAfter (fun a => (hstep a).orderly) a) (Language.completedBy_afterStep a) ?_
      intro ts rest b table hahead hrun
      have hreal' := hreal.past hahead table
      cases b with
      | none => exact (Recognizes.nothing a).outcome _ hreal'
      | some b =>
        have hlt := hprod.takes _ _ _ _ hrun
        exact ih b _ hreal' (by omega)
    rw [hprod.iterate_eq]
    refine hread.mono ?_
    rintro room t ts next c t'' ⟨ts₁, ts₂, b, t', rfl, hs, hafter⟩
    exact hext.remainder hs hafter

/-- A text of `I`, and what a repetition adds to it. -/
theorem Recognizes.iterate (hprod : Productive step) (hext : I.ExtendedBy S)
    (hstep : ∀ a, Recognizes (S a) room ls' (step a)) {p : Parser α}
    (hp : Recognizes I room ls p) : Recognizes I room ls (p >>= Parser.iterate step) where
  orderly := hp.orderly.bind fun a => .iterate (fun a => (hstep a).orderly) a
  widens := hp.widens
  completed := hp.completed
  outcome s hreal := by
    refine ((hp.outcome s hreal).bind hp.widens
      (fun a => .iterate (fun a => (hstep a).orderly) a) Language.completedBy_remainder
      fun ts rest a table hahead _ => .iterate hprod hext hstep _ a _ (hreal.past hahead table)
        (Nat.lt_succ_self _)).mono ?_
    rintro room t ts next b t' ⟨ts₁, ts₂, a, t₁, rfl, hi, hrest⟩
    exact hrest hi

end Iterate

/-- Items with commas between them, where `I` collects texts of `L`. -/
theorem Recognizes.commaSeparated {L : Language α} {I : Language (List α)} {room : Nat}
    {ls : List Lexeme} {item : Parser α} (hitem : Recognizes L room ls item) (hI : I.Widens)
    (one : ∀ {room t ts next a t'}, L room t ts next a t' → I room t ts next [a] t')
    (another : ∀ {room t ts t' ts' as a next t'' comma}, I room t ts (.mark .comma) as t' →
      L room t' ts' next a t'' →
      I room t (ts ++ ⟨.mark .comma, comma⟩ :: ts') next (as ++ [a]) t'') :
    Recognizes I room ls (Parser.commaSeparated item) := by
  have hfirst : Recognizes I room (ls ++ []) (item >>= fun a => pure [a]) := by
    refine (hitem.bind fun a => .nothing [a]).mono hI ?_
    rintro room t ts next b t' ⟨ts₁, ts₂, a, t₁, rfl, hl, rfl, rfl, rfl⟩
    simpa using one hl
  have hstep : ∀ as, Recognizes _ room [] (commaStep item as) := fun as =>
    .accept_bind rfl (hitem.bind fun a => .nothing (some (as ++ [a]))) (.nothing none)
  rw [List.append_nil] at hfirst
  have heq : Parser.commaSeparated item =
      (item >>= fun a => pure [a]) >>= Parser.iterate (commaStep item) := by
    rw [commaSeparated_eq, bind_assoc]
    rfl
  rw [heq]
  refine hfirst.iterate (productive_commaStep hitem.orderly) ⟨?_, ?_⟩ hstep
  · rintro room t₀ ts ts' next as t b t' hi
      (⟨_, _, comma, t₁, rfl, ⟨rfl, rfl⟩, us, _, a, t₂, rfl, hl, rfl, h, rfl⟩ | ⟨_, h, _⟩)
    · cases h
      simpa using another hi (by simpa using hl)
    · cases h
  · rintro room as t ts next t'
      (⟨_, _, comma, t₁, rfl, ⟨rfl, rfl⟩, us, _, a, t₂, rfl, hl, rfl, h, rfl⟩ | ⟨rfl, _, rfl⟩)
    · cases h
    · exact ⟨rfl, rfl⟩

theorem inRange_of_ne {t : Token} (h : ∀ digits, t.lexeme ≠ .integer digits) : t.InRange :=
  fun digits hdigits => absurd hdigits (h digits)

theorem State.exists_ahead {s : State} (h : s.current.lexeme ≠ .endOfFile) :
    ∃ rest, s.ahead = s.current :: rest := by
  cases hs : s.ahead with
  | nil => simp [State.current, hs] at h
  | cons t rest => exact ⟨rest, by rw [State.current_eq hs]⟩

theorem State.ahead_eq_nil {s : State} (hreal : s.Real) (h : s.current.lexeme = .endOfFile) :
    s.ahead = [] := by
  cases hs : s.ahead with
  | nil => rfl
  | cons t rest =>
    rw [State.current_eq hs] at h
    exact absurd h (hreal t (by simp [hs]))

namespace Outcome

variable {L : Language α} {K : Language β} {room : Nat} {s : State}

theorem ofBroken {code : Code} {loc : Location} {args : List (String × Argument)}
    (hs : s.current.lexeme ≠ .endOfFile) (hcode : code.isIncomplete = false) :
    Outcome L room (fail code loc args) s := by
  obtain ⟨rest, hrest⟩ := State.exists_ahead hs
  refine .broken (by simp [hrest]) fun more finish => ?_
  have hfail : (fail code loc args : Parser α) (s.extend more finish) =
      .error ⟨code, loc, args⟩ (s.extend more finish) := rfl
  refine ⟨⟨code, loc, args⟩, ?_, hcode⟩
  rw [hfail]
  exact List.mem_append_right _ (List.mem_singleton.2 rfl)

theorem ofStuck {code : Code} {loc : Location} {args : List (String × Argument)}
    {ls : List Lexeme} (hreal : s.Real) (hs : s.current.lexeme = .endOfFile)
    (hcode : code.isIncomplete) (hL : L.CompletedBy room ls) :
    Outcome L room (fail code loc args) s := by
  have hnil := State.ahead_eq_nil hreal hs
  refine .stuck ⟨code, loc, args⟩ s ls rfl hcode (fun e he => .inl he) hnil (by simp [hnil])
    hL.fillers hL.head fun us next hus hnext => ?_
  rw [hnil]
  exact hL.completes us s.table next hus hnext

theorem ofDeep {args : List (String × Argument)} :
    Outcome L room (current >>= fun t => fail .nestingTooDeep t.loc args) s :=
  .deep ⟨⟨.nestingTooDeep, s.current.loc, args⟩,
    List.mem_append_right _ (List.mem_singleton.2 rfl), rfl⟩

/-- The token ahead is taken, and behind it comes a text of another language. -/
theorem advance_bind {L : Language β} {f : Unit → Parser β} {ls : List Lexeme} (hreal : s.Real)
    (hs : s.current.lexeme ≠ .endOfFile) (ht : s.current.InRange)
    (hf : Recognizes K room ls (f ()))
    (hL : ∀ {room t ts next b t'}, K room t ts next b t' →
      L room t (s.current :: ts) next b t') : Outcome L room (Parser.advance >>= f) s := by
  obtain ⟨rest, hrest⟩ := State.exists_ahead hs
  refine ((Outcome.advance hrest ht).andThen (Language.widens_given _) hreal fun _ => hf).mono ?_
  rintro room t ts next b t' ⟨_, _, _, _, rfl, ⟨rfl, rfl⟩, hk⟩
  exact hL hk

/-- A construct takes a level of its own. -/
theorem deepen {p : Parser α} (h : Outcome L.deeper room p s) :
    Outcome L (room + 1) p s := by
  cases h with
  | read ts rest a table ahead reads inRange run steady =>
    exact .read ts rest a table ahead reads inRange run steady
  | stuck d s' completion run incomplete noted atEnd inRange fillers head completes =>
    exact .stuck d s' completion run incomplete noted atEnd inRange fillers head completes
  | deep reports => exact .deep reports
  | broken some reports => exact .broken some reports

end Outcome

/-- What may be left out before a lexeme, and the lexeme. -/
def Language.closedBy (l : Lexeme) (absent : Location → α) (L : Language α) : Language α :=
  fun room t ts _ a t' => (∃ loc, ts = [⟨l, loc⟩] ∧ a = absent loc ∧ t' = t) ∨
    ∃ ts' loc, ts = ts' ++ [⟨l, loc⟩] ∧ L room t ts' l a t'

theorem Recognizes.closedBy {L : Language α} {room : Nat} {p : Parser α} {ls : List Lexeme}
    {l : Lexeme} (hl : l.isFiller) (helse : l ≠ .keyword .elseKw) (absent : Location → α)
    (hp : Recognizes L room ls p) :
    Recognizes (L.closedBy l absent) room [l] (closedBy l absent p) where
  orderly := .closedBy l absent hp.orderly
  widens := by
    rintro room t ts next next' a t' _ (⟨loc, h⟩ | ⟨ts', loc, rfl, h⟩)
    · exact .inl ⟨loc, h⟩
    · exact .inr ⟨ts', loc, rfl, hp.widens (.inl rfl) h⟩
  completed := by
    refine ⟨by simpa using hl, by simpa using helse, fun us t next hus _ => ?_⟩
    obtain ⟨u, rfl, rfl⟩ := List.map_eq_singleton_iff.1 hus
    exact ⟨absent u.loc, t, .inl ⟨u.loc, rfl, rfl, rfl⟩⟩
  outcome s hreal := by
    refine .current_bind ?_
    dsimp only
    split
    · rename_i hs
      have hne : s.current.lexeme ≠ .endOfFile := by
        rw [hs]
        exact ne_endOfFile_of_isFiller hl
      have htake : Outcome (L.closedBy l absent) room
          (advance >>= fun _ => pure (absent s.current.loc)) s := by
        refine .advance_bind hreal hne (inRange_of_isFiller (by rwa [hs])) (.nothing _) ?_
        rintro room t ts next a t' ⟨rfl, rfl, rfl⟩
        exact .inl ⟨s.current.loc, by rw [← hs], rfl, rfl⟩
      refine htake.congr ?_ fun hahead more finish => ?_
      · rw [pure_bind, bind_of_ok (expect_of_eq hs)]
        rfl
      · rw [pure_bind, bind_of_ok (expect_of_eq (by rwa [State.current_extend hahead]))]
        rfl
    · refine ((hp.outcome s hreal).andThen hp.widens hreal fun a =>
        (Recognizes.expect hl helse).bind fun _ => .nothing a).mono ?_
      rintro room t ts next a t'
        ⟨ts', _, _, _, rfl, h, _, _, loc, _, rfl, ⟨rfl, rfl⟩, rfl, rfl, rfl⟩
      exact .inr ⟨ts', loc, rfl, h⟩

/-- The place of the first token. -/
def startOf (ts : List Token) : Location := (ts.head?.map (·.loc)).getD .none

theorem startOf_eq_current {s : State} {ts rest : List Token} (hts : ts ≠ [])
    (h : s.ahead = ts ++ rest) : startOf ts = s.current.loc := by
  cases ts with
  | nil => exact absurd rfl hts
  | cons t ts =>
    rw [State.current_eq h]
    rfl

/-- What is read takes the place of its first token. -/
theorem Recognizes.located {L : Language α} {room : Nat} {p : Parser α} {ls : List Lexeme}
    (g : α → Location → β) (hp : Recognizes L room ls p)
    (hne : ∀ {room t ts next a t'}, L room t ts next a t' → ts ≠ []) :
    Recognizes (fun room t ts next b t' => ∃ a, b = g a (startOf ts) ∧ L room t ts next a t')
      room ls (do
        let loc := (← current).loc
        return g (← p) loc) where
  orderly := Orderly.current.bind fun _ => hp.orderly.bind fun _ => .pure _
  widens := by
    rintro room t ts next next' b t' hnext ⟨a, rfl, hl⟩
    exact ⟨a, rfl, hp.widens hnext hl⟩
  completed := by
    refine ⟨hp.completed.fillers, hp.completed.head, fun us t next hus hnext => ?_⟩
    obtain ⟨a, t', hl⟩ := hp.completed.completes us t next hus hnext
    exact ⟨_, t', a, rfl, hl⟩
  outcome s hreal := by
    refine .current_bind ?_
    cases hp.outcome s hreal with
    | deep reports =>
      obtain ⟨d, hd, hcode⟩ := reports
      exact .deep ⟨d, mem_diagnostics_bind (fun _ => .pure _) hd, hcode⟩
    | broken some reports =>
      refine .broken some fun more finish => ?_
      obtain ⟨d, hd, hcode⟩ := reports more finish
      exact ⟨d, mem_diagnostics_bind (fun _ => .pure _) hd, hcode⟩
    | stuck d s' completion run incomplete noted atEnd inRange fillers head completes =>
      refine .stuck d s' completion (bind_of_error run) incomplete noted atEnd inRange fillers
        head fun us next hus hnext => ?_
      obtain ⟨a, t', hl⟩ := completes us next hus hnext
      exact ⟨_, t', a, rfl, hl⟩
    | read ts rest a table ahead reads inRange run steady =>
      refine .read ts rest (g a s.current.loc) table ahead ?_ inRange (bind_of_ok run)
        fun hrest more finish => bind_of_ok (steady hrest more finish)
      exact ⟨a, by rw [startOf_eq_current (hne reads) ahead], reads⟩

end Ember.Parser
