import Ember.Parser.Program

namespace Ember.Parser

variable {α β : Type}

/-- The state in which a run of a parser ends. -/
def finalState : EStateM.Result Diagnostic State α → State
  | .ok _ s => s
  | .error _ s => s

theorem bind_of_ok {p : Parser α} {f : α → Parser β} {s s' : State} {a : α}
    (h : p s = .ok a s') : (p >>= f) s = f a s' := by
  simp only [bind, EStateM.bind, h]

theorem bind_of_error {p : Parser α} {f : α → Parser β} {s s' : State} {d : Diagnostic}
    (h : p s = .error d s') : (p >>= f) s = .error d s' := by
  simp only [bind, EStateM.bind, h]

theorem current_bind (f : Token → Parser α) (s : State) : (current >>= f) s = f s.current s := rfl

theorem accept_of_eq {l : Lexeme} {s : State} (h : s.current.lexeme = l) :
    accept l s = .ok true s.advanced := by
  rw [accept, current_bind, if_pos h]
  rfl

theorem accept_of_ne {l : Lexeme} {s : State} (h : s.current.lexeme ≠ l) :
    accept l s = .ok false s := by
  rw [accept, current_bind, if_neg h]
  rfl

theorem expect_of_eq {l : Lexeme} {s : State} (h : s.current.lexeme = l) :
    expect l s = .ok s.current.loc s.advanced := by
  rw [expect, current_bind, if_pos h]
  rfl

/-- A lexeme that is missing at the end of the file is reported as such. -/
theorem expect_of_ne {l : Lexeme} {s : State} (h : s.current.lexeme ≠ l) :
    ∃ d, expect l s = .error d s ∧ d.isIncomplete = decide (s.current.lexeme = .endOfFile) := by
  rw [expect, current_bind, if_neg h]
  refine ⟨_, rfl, ?_⟩
  by_cases hend : s.current.lexeme = .endOfFile
  · simp only [Diagnostic.isIncomplete, if_pos hend, decide_eq_true hend]
    rfl
  · simp only [Diagnostic.isIncomplete, if_neg hend, decide_eq_false hend]
    rfl

theorem identifier_of_eq {name : String} {s : State} (h : s.current.lexeme = .identifier name) :
    identifier s = .ok (name, s.current.loc) s.advanced := by
  rw [identifier, current_bind, h]
  rfl

theorem identifier_of_ne {s : State} (h : ∀ name, s.current.lexeme ≠ .identifier name) :
    ∃ d, identifier s = .error d s ∧ d.isIncomplete = decide (s.current.lexeme = .endOfFile) := by
  rw [identifier, current_bind]
  cases hl : s.current.lexeme with
  | identifier name => exact absurd hl (h name)
  | endOfFile | integer | keyword | mark => exact ⟨_, rfl, rfl⟩

theorem datatype_of_eq {type : Datatype} {s : State} (h : s.current.lexeme.datatype? = some type) :
    datatype s = .ok type s.advanced := by
  rw [datatype, current_bind, h]
  rfl

theorem datatype_of_none {s : State} (h : s.current.lexeme.datatype? = none) :
    ∃ d, datatype s = .error d s ∧ d.isIncomplete = decide (s.current.lexeme = .endOfFile) := by
  rw [datatype, current_bind, h]
  by_cases hend : s.current.lexeme = .endOfFile
  · rw [if_pos hend, decide_eq_true hend]
    exact ⟨_, rfl, rfl⟩
  · rw [if_neg hend, decide_eq_false hend]
    exact ⟨_, rfl, rfl⟩

/-- A parser takes its tokens from the front of those ahead, and only adds to what it has
noted. -/
def Orderly (p : Parser α) : Prop :=
  ∀ s, (finalState (p s)).ahead <:+ s.ahead ∧ s.report <+: (finalState (p s)).report

namespace Orderly

theorem pure (a : α) : Orderly (Pure.pure a : Parser α) :=
  fun _ => ⟨List.suffix_refl _, List.prefix_refl _⟩

theorem bind {p : Parser α} {f : α → Parser β} (hp : Orderly p)
    (hf : ∀ a, Orderly (f a)) : Orderly (p >>= f) := by
  intro s
  obtain ⟨hahead, hreport⟩ := hp s
  cases h : p s with
  | ok a s' =>
    rw [h] at hahead hreport
    rw [bind_of_ok h]
    obtain ⟨hahead', hreport'⟩ := hf a s'
    exact ⟨hahead'.trans hahead, hreport.trans hreport'⟩
  | error d s' =>
    rw [h] at hahead hreport
    rw [bind_of_error h]
    exact ⟨hahead, hreport⟩

theorem map {p : Parser α} (f : α → β) (hp : Orderly p) : Orderly (f <$> p) := by
  rw [map_eq_pure_bind]
  exact hp.bind fun a => pure (f a)

theorem ite {c : Prop} [Decidable c] {p q : Parser α} (hp : Orderly p)
    (hq : Orderly q) : Orderly (if c then p else q) := by
  split
  · exact hp
  · exact hq

theorem get : Orderly (MonadState.get : Parser State) :=
  fun _ => ⟨List.suffix_refl _, List.prefix_refl _⟩

theorem current : Orderly current :=
  fun _ => ⟨List.suffix_refl _, List.prefix_refl _⟩

theorem advance : Orderly advance := by
  intro s
  change s.advanced.ahead <:+ s.ahead ∧ s.report <+: s.advanced.report
  unfold State.advanced
  split
  · exact ⟨List.suffix_refl _, List.prefix_refl _⟩
  · rename_i t rest h
    exact ⟨h ▸ List.suffix_cons t rest, List.prefix_refl _⟩

theorem fail (code : Code) (loc : Location) (args : List (String × Argument)) :
    Orderly (fail code loc args : Parser α) :=
  fun _ => ⟨List.suffix_refl _, List.prefix_refl _⟩

theorem accept (l : Lexeme) : Orderly (accept l) :=
  current.bind fun _ => ite (advance.bind fun _ => pure _) (pure _)

theorem expect (l : Lexeme) : Orderly (expect l) :=
  current.bind fun _ => ite (advance.bind fun _ => pure _) (get.bind fun _ => fail _ _ _)

theorem identifier : Orderly identifier := by
  refine current.bind fun t => ?_
  split
  · exact advance.bind fun _ => pure _
  · exact fail _ _ _
  · exact fail _ _ _

theorem datatype : Orderly datatype := by
  refine current.bind fun t => ?_
  split
  · exact advance.bind fun _ => pure _
  · exact ite (fail _ _ _) (fail _ _ _)

theorem enter (name : String) (type : Datatype) : Orderly (enter name type) :=
  fun _ => ⟨List.suffix_refl _, List.prefix_refl _⟩

theorem retype (id : Int) (type : Datatype) :
    Orderly (modify fun s => { s with table := s.table.retype id type } : Parser Unit) :=
  fun _ => ⟨List.suffix_refl _, List.prefix_refl _⟩

theorem attempt {p : Parser α} (hp : Orderly p) : Orderly (attempt p) := by
  intro s
  have h := hp s
  unfold Parser.attempt
  cases hs : p s <;> rw [hs] at h <;> exact h

theorem record (d : Diagnostic) : Orderly (record d) :=
  fun _ => ⟨List.suffix_refl _, List.prefix_append _ _⟩

theorem pastSemicolon_suffix (last : Option Location) (ahead : List Token) :
    (pastSemicolon last ahead).2 <:+ ahead := by
  induction ahead generalizing last with
  | nil => exact List.suffix_refl _
  | cons t rest ih =>
    unfold pastSemicolon
    split
    · exact List.suffix_cons t rest
    · split
      · exact List.suffix_refl _
      · exact (ih _).trans (List.suffix_cons t rest)

theorem pastBraces_suffix (last : Option Location) (ahead : List Token) :
    (pastBraces last ahead).2 <:+ ahead := by
  induction ahead generalizing last with
  | nil => exact List.suffix_refl _
  | cons t rest ih =>
    unfold pastBraces
    split
    · exact (ih _).trans (List.suffix_cons t rest)
    · exact List.suffix_refl _

theorem synchronize : Orderly synchronize :=
  fun s => ⟨pastSemicolon_suffix s.last s.ahead, List.prefix_refl _⟩

theorem skipBraces : Orderly skipBraces :=
  fun s => ⟨pastBraces_suffix s.last s.ahead, List.prefix_refl _⟩

theorem iterateWithin {step : α → Parser (Option α)} (h : ∀ a, Orderly (step a)) :
    ∀ (room : List Token) (a : α), Orderly (iterateWithin step room a)
  | [], a => pure a
  | _ :: room, a => by
    refine (h a).bind fun b => ?_
    cases b with
    | none => exact pure a
    | some b => exact iterateWithin h room b

theorem iterate {step : α → Parser (Option α)} (h : ∀ a, Orderly (step a)) (a : α) :
    Orderly (iterate step a) :=
  get.bind fun s => iterateWithin h s.ahead a

theorem commaSeparated {item : Parser α} (h : Orderly item) :
    Orderly (commaSeparated item) :=
  h.bind fun first => iterate (fun _ => (accept _).bind fun _ =>
    ite (h.bind fun _ => pure _) (pure _)) [first]

/-- A parser never lengthens what is ahead. -/
theorem length_le {p : Parser α} (h : Orderly p) (s : State) :
    (finalState (p s)).ahead.length ≤ s.ahead.length :=
  (h s).1.length_le

end Orderly

/-- Where the parser succeeds from the state `s`, it has taken a token. -/
def TakesAt (s : State) (p : Parser α) : Prop :=
  ∀ a s', p s = .ok a s' → s'.ahead.length < s.ahead.length

/-- A parser that takes a token wherever it succeeds. -/
def Hungry (p : Parser α) : Prop := ∀ s, TakesAt s p

/-- Taking a token that is there. -/
theorem length_advanced {s : State} (h : s.current.lexeme ≠ .endOfFile) :
    s.advanced.ahead.length < s.ahead.length := by
  unfold State.current at h
  unfold State.advanced
  cases hs : s.ahead <;> simp_all

namespace TakesAt

theorem current_bind {s : State} {f : Token → Parser α} (h : TakesAt s (f s.current)) :
    TakesAt s (current >>= f) := h

theorem fail (s : State) (code : Code) (loc : Location) (args : List (String × Argument)) :
    TakesAt s (fail code loc args : Parser α) := by
  intro a s' h
  cases h

theorem advance_bind {s : State} {f : Unit → Parser α} (hs : s.current.lexeme ≠ .endOfFile)
    (hf : Orderly (f ())) : TakesAt s (advance >>= f) := by
  intro a s' h
  have hle := hf.length_le s.advanced
  change f () s.advanced = _ at h
  rw [h] at hle
  exact Nat.lt_of_le_of_lt hle (length_advanced hs)

end TakesAt

namespace Hungry

theorem bind_left {p : Parser α} {f : α → Parser β} (hp : Hungry p)
    (hf : ∀ a, Orderly (f a)) : Hungry (p >>= f) := by
  intro s b s'' h
  cases hs : p s with
  | ok a s' =>
    rw [bind_of_ok hs] at h
    have hle := (hf a).length_le s'
    rw [h] at hle
    exact Nat.lt_of_le_of_lt hle (hp s a s' hs)
  | error d s' => simp [bind_of_error hs] at h

theorem bind_right {p : Parser α} {f : α → Parser β} (hp : Orderly p)
    (hf : ∀ a, Hungry (f a)) : Hungry (p >>= f) := by
  intro s b s'' h
  cases hs : p s with
  | ok a s' =>
    rw [bind_of_ok hs] at h
    have hle := hp.length_le s
    rw [hs] at hle
    exact Nat.lt_of_lt_of_le (hf a s' b s'' h) hle
  | error d s' => simp [bind_of_error hs] at h

theorem ite {c : Prop} [Decidable c] {p q : Parser α} (hp : Hungry p) (hq : Hungry q) :
    Hungry (if c then p else q) := by
  split
  · exact hp
  · exact hq

theorem expect {l : Lexeme} (hl : l ≠ .endOfFile) : Hungry (expect l) := by
  intro s a s' h
  by_cases hs : s.current.lexeme = l
  · rw [expect_of_eq hs] at h
    cases h
    exact length_advanced (hs ▸ hl)
  · obtain ⟨d, hd, _⟩ := expect_of_ne hs
    rw [hd] at h
    cases h

theorem identifier : Hungry identifier := by
  intro s a s' h
  by_cases hs : ∃ name, s.current.lexeme = .identifier name
  · obtain ⟨name, hs⟩ := hs
    rw [identifier_of_eq hs] at h
    cases h
    exact length_advanced (by simp [hs])
  · obtain ⟨d, hd, _⟩ := identifier_of_ne fun name hname => hs ⟨name, hname⟩
    rw [hd] at h
    cases h

theorem datatype : Hungry datatype := by
  intro s a s' h
  cases hs : s.current.lexeme.datatype? with
  | some type =>
    rw [datatype_of_eq hs] at h
    cases h
    exact length_advanced fun hend => by simp [hend, Lexeme.datatype?] at hs
  | none =>
    obtain ⟨d, hd, _⟩ := datatype_of_none hs
    rw [hd] at h
    cases h

end Hungry

/-- What a repetition does after a step from `a`. -/
def iterateAfter (step : α → Parser (Option α)) (a : α) : Option α → Parser α
  | none => return a
  | some b => iterate step b

theorem Orderly.iterateAfter {step : α → Parser (Option α)} (h : ∀ a, Orderly (step a)) (a : α) :
    ∀ b, Orderly (iterateAfter step a b)
  | none => .pure a
  | some b => .iterate h b

/-- A step of a repetition that adds nothing at the end of the file, and takes a token whenever
it adds something. -/
structure Productive (step : α → Parser (Option α)) : Prop where
  atEnd : ∀ a s, s.ahead = [] → step a s = .ok none s
  takes : ∀ a s b s', step a s = .ok (some b) s' → s'.ahead.length < s.ahead.length

namespace Productive

/-- As long as there is an element for each token ahead, the bound of a repetition does not
show. -/
theorem iterateWithin_eq {step : α → Parser (Option α)} (h : Productive step) :
    ∀ (room room' : List Token) (a : α) (s : State), s.ahead.length ≤ room.length →
      s.ahead.length ≤ room'.length →
      iterateWithin step room a s = iterateWithin step room' a s
  | [], [], _, _, _, _ => rfl
  | [], _ :: _, a, s, hroom, _ => by
    rw [iterateWithin, iterateWithin, bind_of_ok (h.atEnd a s (by simpa using hroom))]
  | _ :: _, [], a, s, _, hroom => by
    rw [iterateWithin, iterateWithin, bind_of_ok (h.atEnd a s (by simpa using hroom))]
  | _ :: room, _ :: room', a, s, hroom, hroom' => by
    rw [iterateWithin, iterateWithin]
    cases hs : step a s with
    | error d s' => rw [bind_of_error hs, bind_of_error hs]
    | ok b s' =>
      rw [bind_of_ok hs, bind_of_ok hs]
      cases b with
      | none => rfl
      | some b =>
        have hlt := h.takes a s b s' hs
        simp only [List.length_cons] at hroom hroom'
        exact h.iterateWithin_eq room room' b s' (by omega) (by omega)

/-- A repetition is its step, and the repetition again. -/
theorem iterate_eq {step : α → Parser (Option α)} (h : Productive step) (a : α) :
    iterate step a = step a >>= iterateAfter step a := by
  funext s
  change iterateWithin step s.ahead a s = _
  cases hahead : s.ahead with
  | nil => rw [bind_of_ok (h.atEnd a s hahead)]; rfl
  | cons t rest =>
    rw [iterateWithin]
    cases hs : step a s with
    | error d s' => rw [bind_of_error hs, bind_of_error hs]
    | ok b s' =>
      rw [bind_of_ok hs, bind_of_ok hs]
      cases b with
      | none => rfl
      | some b =>
        have hlt := h.takes a s b s' hs
        rw [hahead, List.length_cons] at hlt
        exact h.iterateWithin_eq rest s'.ahead b s' (by omega) (Nat.le_refl _)

end Productive

end Ember.Parser
