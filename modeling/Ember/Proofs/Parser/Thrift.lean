import Ember.Proofs.Parser.Outcome

namespace Ember

/-- A syntax error at one of the places. -/
def Diagnostic.StandsAt (d : Diagnostic) (places : List Location) : Prop :=
  d.code.phase = "Syntax" ∧ d.loc ∈ places

theorem Diagnostic.StandsAt.mono {d : Diagnostic} {places places' : List Location}
    (h : d.StandsAt places) (hsub : places ⊆ places') : d.StandsAt places' :=
  ⟨h.1, hsub h.2⟩

namespace Parser

variable {α β : Type} {k : Nat} {s s' s'' : State} {p q : Parser α}

/-- The places that an error may name: those of the last token taken, of the tokens ahead and of the
end of the file. -/
def State.places (s : State) : List Location :=
  s.last.toList ++ s.ahead.map (·.loc) ++ [s.finish]

theorem State.finish_mem_places (s : State) : s.finish ∈ s.places :=
  List.mem_append_right _ (List.mem_singleton_self _)

theorem State.loc_mem_places {t : Token} (h : t ∈ s.ahead) : t.loc ∈ s.places :=
  List.mem_append_left _ (List.mem_append_right _ (List.mem_map_of_mem h))

theorem State.last_mem_places {loc : Location} (h : loc ∈ s.last) : loc ∈ s.places :=
  List.mem_append_left _ (List.mem_append_left _ (Option.mem_toList.2 h))

theorem State.current_mem_places (s : State) : s.current.loc ∈ s.places := by
  cases hs : s.ahead with
  | nil =>
    rw [State.current, hs]
    exact s.finish_mem_places
  | cons t rest =>
    rw [State.current_eq hs]
    exact State.loc_mem_places (by simp [hs])

/-- Taking tokens from the front brings no new places. -/
theorem State.places_subset (hahead : s'.ahead <:+ s.ahead) (hfinish : s'.finish = s.finish)
    (hlast : ∀ loc ∈ s'.last, loc ∈ s.last ∨ ∃ t ∈ s.ahead, loc = t.loc) :
    s'.places ⊆ s.places := by
  intro loc hloc
  rcases List.mem_append.1 hloc with hloc | hloc
  · rcases List.mem_append.1 hloc with hloc | hloc
    · rcases hlast loc (Option.mem_toList.1 hloc) with hlast | ⟨t, ht, rfl⟩
      · exact State.last_mem_places hlast
      · exact State.loc_mem_places ht
    · obtain ⟨t, ht, rfl⟩ := List.mem_map.1 hloc
      exact State.loc_mem_places (hahead.subset ht)
  · rw [List.mem_singleton.1 hloc, hfinish]
    exact s.finish_mem_places

/-- What may become of a state: tokens are taken, errors at known places are noted, and where any
are noted at least `k` tokens more are taken. -/
structure Pays (k : Nat) (s s' : State) : Prop where
  ahead : s'.ahead <:+ s.ahead
  places : s'.places ⊆ s.places
  noted : ∃ new : Report, s'.report = s.report ++ new ∧ (∀ d ∈ new, d.StandsAt s.places) ∧
    (new = [] ∨ new.length + k + s'.ahead.length ≤ s.ahead.length)

namespace Pays

/-- Nothing is noted. -/
theorem silent (hahead : s'.ahead <:+ s.ahead) (hplaces : s'.places ⊆ s.places)
    (hreport : s'.report = s.report) : Pays k s s' :=
  ⟨hahead, hplaces, [], by simpa using hreport, by simp, .inl rfl⟩

theorem refl (s : State) : Pays k s s := silent (List.suffix_refl _) (fun _ h => h) rfl

theorem trans (h : Pays k s s') (h' : Pays k s' s'') : Pays k s s'' := by
  obtain ⟨new, hreport, hat, hpays⟩ := h.noted
  obtain ⟨new', hreport', hat', hpays'⟩ := h'.noted
  refine ⟨h'.ahead.trans h.ahead, fun _ hl => h.places (h'.places hl), new ++ new', ?_, ?_, ?_⟩
  · rw [hreport', hreport, List.append_assoc]
  · intro d hd
    rcases List.mem_append.1 hd with hd | hd
    · exact hat d hd
    · exact (hat' d hd).mono h.places
  · have hle := h.ahead.length_le
    have hle' := h'.ahead.length_le
    rcases hpays with rfl | hpays
    · rw [List.nil_append]
      exact hpays'.imp_right fun hpays' => by omega
    · refine .inr ?_
      rw [List.length_append]
      rcases hpays' with rfl | hpays'
      · rw [List.length_nil]
        omega
      · omega

theorem mono {j : Nat} (h : Pays k s s') (hjk : j ≤ k) : Pays j s s' := by
  obtain ⟨new, hreport, hat, hpays⟩ := h.noted
  exact ⟨h.ahead, h.places, new, hreport, hat, hpays.imp_right fun hle => by omega⟩

theorem advanced (s : State) : Pays k s s.advanced := by
  cases hs : s.ahead with
  | nil => simpa [State.advanced, hs] using refl s
  | cons t rest =>
    have hsuffix : rest <:+ s.ahead := hs ▸ List.suffix_cons t rest
    rw [State.advanced_eq hs]
    refine silent hsuffix (State.places_subset hsuffix rfl ?_) rfl
    rintro loc ⟨⟩
    exact .inr ⟨t, hs ▸ List.mem_cons_self, rfl⟩

/-- An error that is noted is paid for by a token that is dropped, or by the token that whoever ran
into it had to spare. -/
theorem recover {d : Diagnostic} (h : Pays 1 s s') (hd : d.StandsAt s.places)
    (hahead : s''.ahead <:+ s'.ahead) (hplaces : s''.places ⊆ s'.places)
    (hreport : s''.report = s'.report ++ [d]) (hlt : s''.ahead.length < s.ahead.length) :
    Pays 0 s s'' := by
  obtain ⟨new, hnew, hat, hpays⟩ := h.noted
  refine ⟨hahead.trans h.ahead, fun _ hl => h.places (hplaces hl), new ++ [d], ?_, ?_, .inr ?_⟩
  · rw [hreport, hnew, List.append_assoc]
  · intro e he
    rcases List.mem_append.1 he with he | he
    · exact hat e he
    · rwa [List.mem_singleton.1 he]
  · have hle := hahead.length_le
    rw [List.length_append, List.length_singleton]
    rcases hpays with rfl | hpays
    · rw [List.length_nil]
      omega
    · omega

/-- A token that is taken before anything is noted is to spare. -/
theorem spare (hs : s.current.lexeme ≠ .endOfFile) (h : Pays 0 s.advanced s') : Pays 1 s s' := by
  have hlt := length_advanced hs
  have htake : Pays 1 s s.advanced := advanced s
  obtain ⟨new, hreport, hat, hpays⟩ := h.noted
  refine ⟨h.ahead.trans htake.ahead, fun _ hl => htake.places (h.places hl), new, ?_, ?_, ?_⟩
  · rw [hreport]
    unfold State.advanced
    split <;> rfl
  · exact fun d hd => (hat d hd).mono htake.places
  · exact hpays.imp_right fun hle => by omega

end Pays

/-- From the state `s`, the parser pays for what it notes, and what it stops with is a syntax error
at a place known before. -/
def ThriftyAt (k : Nat) (s : State) (p : Parser α) : Prop :=
  Pays k s (finalState (p s)) ∧ ∀ d s', p s = .error d s' → d.StandsAt s.places

/-- A parser that pays for what it notes, from every state. -/
def Thrifty (k : Nat) (p : Parser α) : Prop := ∀ s, ThriftyAt k s p

namespace ThriftyAt

theorem of_ok {a : α} (hrun : p s = .ok a s') (h : Pays k s s') : ThriftyAt k s p := by
  refine ⟨by rwa [hrun], fun d s'' herror => ?_⟩
  rw [hrun] at herror
  cases herror

theorem bind_of_ok {f : α → Parser β} {a : α} (hrun : p s = .ok a s') (h : Pays k s s')
    (hf : ThriftyAt k s' (f a)) : ThriftyAt k s (p >>= f) := by
  rw [ThriftyAt, Parser.bind_of_ok hrun]
  exact ⟨h.trans hf.1, fun d s'' herror => (hf.2 d s'' herror).mono h.places⟩

theorem current_bind {f : Token → Parser α} (h : ThriftyAt k s (f s.current)) :
    ThriftyAt k s (current >>= f) := h

theorem fail {code : Code} {loc : Location} {args : List (String × Argument)}
    (hcode : code.phase = "Syntax") (hloc : loc ∈ s.places) :
    ThriftyAt k s (fail code loc args : Parser α) := by
  refine ⟨.refl s, fun d s' herror => ?_⟩
  cases herror
  exact ⟨hcode, hloc⟩

end ThriftyAt

namespace Thrifty

variable {item : Parser α} {operand expr : Parser Expr} {stmt : Parser Stmt}

theorem pure (a : α) : Thrifty k (Pure.pure a : Parser α) := fun s => .of_ok rfl (.refl s)

theorem bind {f : α → Parser β} (hp : Thrifty k p) (hf : ∀ a, Thrifty k (f a)) :
    Thrifty k (p >>= f) := by
  intro s
  have hs := hp s
  cases hrun : p s with
  | ok a s' =>
    rw [ThriftyAt, hrun] at hs
    exact .bind_of_ok hrun hs.1 (hf a s')
  | error d s' =>
    rw [ThriftyAt, hrun] at hs
    rw [ThriftyAt, bind_of_error hrun]
    exact ⟨hs.1, fun e s'' herror => by cases herror; exact hs.2 d s' rfl⟩

theorem map {f : α → β} (h : Thrifty k p) : Thrifty k (f <$> p) := by
  rw [map_eq_pure_bind]
  exact h.bind fun a => pure (f a)

theorem ite {c : Prop} [Decidable c] (hp : Thrifty k p) (hq : Thrifty k q) :
    Thrifty k (if c then p else q) := by
  split
  · exact hp
  · exact hq

theorem get : Thrifty k (MonadState.get : Parser State) := fun s => .of_ok rfl (.refl s)

theorem current : Thrifty k current := fun s => .of_ok rfl (.refl s)

theorem advance : Thrifty k advance := fun s => .of_ok rfl (.advanced s)

/-- A change of the table only. -/
theorem update (change : SymbolTable → α × SymbolTable)
    (hp : ∀ s, p s = .ok (change s.table).1 { s with table := (change s.table).2 }) :
    Thrifty k p :=
  fun s => .of_ok (hp s) (.silent (List.suffix_refl _) (fun _ h => h) rfl)

theorem enter (name : String) (type : Datatype) : Thrifty k (enter name type) :=
  update (fun t => (((t.add name type).1 : Int), (t.add name type).2)) fun _ => rfl

theorem retype (id : Int) (type : Datatype) :
    Thrifty k (modify fun s => { s with table := s.table.retype id type } : Parser Unit) :=
  update (fun t => ((), t.retype id type)) fun _ => rfl

theorem accept (l : Lexeme) : Thrifty k (accept l) :=
  current.bind fun _ => ite (advance.bind fun _ => pure _) (pure _)

/-- What is missing is reported at the last token taken, or at the one ahead. -/
theorem expect (l : Lexeme) : Thrifty k (expect l) := by
  intro s
  by_cases hl : s.current.lexeme = l
  · exact .of_ok (expect_of_eq hl) (.advanced s)
  · rw [Parser.expect]
    refine .current_bind ?_
    rw [if_neg hl]
    refine .bind_of_ok (a := s) rfl (.refl s) (.fail ?_ ?_)
    · split <;> rfl
    · cases hlast : s.last with
      | none => exact s.current_mem_places
      | some loc => exact State.last_mem_places hlast

theorem identifier : Thrifty k identifier := by
  intro s
  refine .current_bind ?_
  split
  · exact (advance.bind fun _ => pure _) s
  · exact .fail rfl s.current_mem_places
  · exact .fail rfl s.current_mem_places

theorem datatype : Thrifty k datatype := by
  intro s
  refine .current_bind ?_
  split
  · exact (advance.bind fun _ => pure _) s
  · split
    · exact .fail rfl s.current_mem_places
    · exact .fail rfl s.current_mem_places

theorem iterateWithin {step : α → Parser (Option α)} (h : ∀ a, Thrifty k (step a)) :
    ∀ (room : List Token) (a : α), Thrifty k (iterateWithin step room a)
  | [], a => pure a
  | _ :: room, a => by
    refine (h a).bind fun b => ?_
    cases b with
    | none => exact pure a
    | some b => exact iterateWithin h room b

theorem iterate {step : α → Parser (Option α)} (h : ∀ a, Thrifty k (step a)) (a : α) :
    Thrifty k (iterate step a) :=
  get.bind fun s => iterateWithin h s.ahead a

theorem commaSeparated (h : Thrifty k item) : Thrifty k (commaSeparated item) :=
  h.bind fun first => iterate (fun _ => (accept _).bind fun _ =>
    ite (h.bind fun _ => pure _) (pure _)) [first]

theorem closedBy (l : Lexeme) (absent : Location → α) (h : Thrifty k item) :
    Thrifty k (closedBy l absent item) :=
  current.bind fun _ => ite ((pure _).bind fun _ => (expect _).bind fun _ => pure _)
    (h.bind fun _ => (expect _).bind fun _ => pure _)

theorem arguments (h : Thrifty k expr) : Thrifty k (arguments expr) :=
  closedBy (.mark .parenClose) (fun _ => []) h.commaSeparated

theorem primary (h : Thrifty k expr) : Thrifty k (primary expr) := by
  intro s
  refine .current_bind ?_
  split
  · exact (advance.bind fun _ => (enter _ _).bind fun _ => pure _) s
  · exact (advance.bind fun _ => pure _) s
  · exact (advance.bind fun _ => pure _) s
  · split
    · exact (advance.bind fun _ => pure _) s
    · exact .fail rfl s.current_mem_places
  · exact (advance.bind fun _ => h.bind fun _ => (expect _).bind fun _ => pure _) s
  · exact .fail rfl s.current_mem_places
  · exact .fail rfl s.current_mem_places

theorem call (h : Thrifty k expr) : Thrifty k (call expr) :=
  h.primary.bind fun first => iterate (fun _ => (accept _).bind fun _ =>
    ite (h.arguments.bind fun _ => pure _) (pure _)) first

theorem leftAssociative (precedence : Nat) (h : Thrifty k operand) :
    Thrifty k (leftAssociative precedence operand) := by
  refine h.bind fun first => iterate (fun _ => current.bind fun _ => ?_) first
  split
  · exact ite (advance.bind fun _ => h.bind fun _ => pure _) (pure _)
  · exact pure _

theorem binary (h : Thrifty k operand) : Thrifty k (binary operand) :=
  leftAssociative 1 (leftAssociative 2 (leftAssociative 3 (leftAssociative 4 h)))

theorem assignmentWithin (h : Thrifty k operand) :
    ∀ room : List Token, Thrifty k (assignmentWithin operand room)
  | [] => h.binary
  | _ :: room => by
    refine h.binary.bind fun _ => current.bind fun _ => ?_
    split
    · exact pure _
    · exact advance.bind fun _ => (assignmentWithin h room).bind fun _ => pure _

theorem expressionOver (h : Thrifty k operand) : Thrifty k (expressionOver operand) :=
  get.bind fun s => assignmentWithin h s.ahead

theorem unary : ∀ room : Nat, Thrifty k (unary room)
  | 0 => fun s => .current_bind (.fail rfl s.current_mem_places)
  | room + 1 => by
    refine current.bind fun _ => ?_
    split
    · exact advance.bind fun _ => (unary room).bind fun _ => pure _
    · exact (unary room).expressionOver.call

theorem expression (room : Nat) : Thrifty k (expression room) := (unary room).expressionOver

theorem declarator (type : Datatype) (h : Thrifty k expr) : Thrifty k (declarator type expr) :=
  identifier.bind fun _ => (enter _ _).bind fun _ => (accept _).bind fun _ =>
    ite (h.bind fun _ => pure _) (pure _)

theorem variableDecls (h : Thrifty k expr) : Thrifty k (variableDecls expr) :=
  datatype.bind fun type => (h.declarator type).commaSeparated.bind fun _ =>
    (expect _).bind fun _ => pure _

theorem exprStmt (h : Thrifty k expr) : Thrifty k (exprStmt expr) :=
  current.bind fun _ => h.bind fun _ => pure _

theorem entry (h : Thrifty k expr) (hs : Thrifty k stmt) : Thrifty k (entry expr stmt) :=
  current.bind fun _ => ite h.variableDecls (hs.bind fun _ => pure _)

/-- The place of the last token that giving up drops. -/
theorem pastSemicolon_last (last : Option Location) (ahead : List Token) :
    ∀ loc ∈ (pastSemicolon last ahead).1, loc ∈ last ∨ ∃ t ∈ ahead, loc = t.loc := by
  induction ahead generalizing last with
  | nil => exact fun loc h => .inl h
  | cons t rest ih =>
    have htake : ∀ loc ∈ some t.loc, loc ∈ last ∨ ∃ u ∈ t :: rest, loc = u.loc := by
      rintro loc ⟨⟩
      exact .inr ⟨t, List.mem_cons_self, rfl⟩
    intro loc hloc
    unfold pastSemicolon at hloc
    split at hloc
    · exact htake loc hloc
    · split at hloc
      · exact .inl hloc
      · rcases ih (some t.loc) loc hloc with h | ⟨u, hu, rfl⟩
        · exact htake loc h
        · exact .inr ⟨u, List.mem_cons_of_mem _ hu, rfl⟩

theorem pastBraces_last (last : Option Location) (ahead : List Token) :
    ∀ loc ∈ (pastBraces last ahead).1, loc ∈ last ∨ ∃ t ∈ ahead, loc = t.loc := by
  induction ahead generalizing last with
  | nil => exact fun loc h => .inl h
  | cons t rest ih =>
    intro loc hloc
    unfold pastBraces at hloc
    split at hloc
    · rcases ih (some t.loc) loc hloc with h | ⟨u, hu, rfl⟩
      · cases h
        exact .inr ⟨t, List.mem_cons_self, rfl⟩
      · exact .inr ⟨u, List.mem_cons_of_mem _ hu, rfl⟩
    · exact .inl hloc

/-- An entry that cannot be read is paid for by what the block drops of it. -/
theorem entryStep (h : Thrifty 1 expr) (hs : Thrifty 1 stmt)
    (hproductive : Productive (entryStep expr stmt)) (body : List Stmt) :
    Thrifty 0 (entryStep expr stmt body) := by
  intro s
  by_cases hend : s.current.lexeme = .mark .braceClose ∨ s.current.lexeme = .endOfFile
  · exact .of_ok (entryStep_of_end body hend) (.refl s)
  have hentry := (h.entry hs) s
  cases hrun : Parser.entry expr stmt s with
  | ok stmts s' =>
    rw [ThriftyAt, hrun] at hentry
    exact .of_ok (entryStep_of_ok body hend hrun) (hentry.1.mono (Nat.zero_le 1))
  | error d s' =>
    rw [ThriftyAt, hrun] at hentry
    have hstep := entryStep_of_error body hend hrun
    have hsuffix := Orderly.pastSemicolon_suffix s'.last s'.ahead
    exact .of_ok hstep (hentry.1.recover (hentry.2 d s' rfl) hsuffix
      (State.places_subset hsuffix rfl (pastSemicolon_last _ _)) rfl
      (hproductive.takes _ _ _ _ hstep))

theorem blockTail (h : Thrifty 1 expr) (hs : Thrifty 1 stmt)
    (hproductive : Productive (Parser.entryStep expr stmt)) (loc : Location) (body : List Stmt) :
    Thrifty 0 (blockTail expr stmt loc body) :=
  (iterate (h.entryStep hs hproductive) body).bind fun _ => (expect _).bind fun _ => pure _

/-- The opening brace is to spare. -/
theorem block (h : Thrifty 1 expr) (hs : Thrifty 1 stmt)
    (hproductive : Productive (Parser.entryStep expr stmt)) : Thrifty 1 (block expr stmt) := by
  intro s
  rw [block_eq]
  by_cases hl : s.current.lexeme = .mark .braceOpen
  · have htail := h.blockTail hs hproductive s.current.loc [] s.advanced
    rw [ThriftyAt, bind_of_ok (expect_of_eq hl)]
    exact ⟨.spare (by simp [hl]) htail.1,
      fun d s' herror => (htail.2 d s' herror).mono (Pays.advanced (k := 0) s).places⟩
  · have hexpect := expect (k := 1) (.mark .braceOpen) s
    obtain ⟨d, hd, -⟩ := expect_of_ne hl
    rw [ThriftyAt, hd] at hexpect
    rw [ThriftyAt, bind_of_error hd]
    exact ⟨hexpect.1, fun e s' herror => by cases herror; exact hexpect.2 d s rfl⟩

theorem condition (h : Thrifty k expr) : Thrifty k (condition expr) :=
  (expect _).bind fun _ => h.bind fun _ => (expect _).bind fun _ => pure _

theorem forInit (h : Thrifty k expr) : Thrifty k (forInit expr) :=
  (accept _).bind fun _ => ite (pure _) (current.bind fun _ => ite h.variableDecls
    (h.exprStmt.bind fun _ => (expect _).bind fun _ => pure _))

theorem forCondition (h : Thrifty k expr) : Thrifty k (forCondition expr) := closedBy _ _ h

theorem forStep (h : Thrifty k expr) : Thrifty k (forStep expr) :=
  closedBy (.mark .parenClose) (fun _ => none) h.exprStmt.map

theorem returning (h : Thrifty k expr) (loc : Location) : Thrifty k (returning expr loc) := by
  rw [returning_eq]
  exact advance.bind fun _ => (closedBy _ _ h.map).bind fun _ => pure _

theorem statement : ∀ room : Nat, Thrifty 1 (statement room)
  | 0 => fun s => .current_bind (.fail rfl s.current_mem_places)
  | room + 1 => by
    have he : Thrifty 1 (Parser.expression room) := expression room
    have hs := statement room
    have hproductive := productive_entryStep (.expression room) (.statement room)
      (Hungry.statement room)
    refine current.bind fun t => ?_
    split
    · exact (he.block hs hproductive).bind fun _ => pure _
    · exact advance.bind fun _ => he.condition.bind fun _ => hs.bind fun _ =>
        (accept _).bind fun _ => ite (hs.bind fun _ => pure _) (pure _)
    · exact advance.bind fun _ => hs.bind fun _ => (expect _).bind fun _ =>
        he.condition.bind fun _ => (expect _).bind fun _ => pure _
    · exact advance.bind fun _ => (expect _).bind fun _ => he.forInit.bind fun _ =>
        he.forCondition.bind fun _ => he.forStep.bind fun _ => hs.bind fun _ => pure _
    · exact advance.bind fun _ => he.condition.bind fun _ => hs.bind fun _ => pure _
    · exact he.returning t.loc
    · exact he.exprStmt.bind fun _ => (expect _).bind fun _ => pure _

theorem param : Thrifty k param :=
  current.bind fun _ => datatype.bind fun _ => identifier.bind fun _ =>
    (enter _ _).bind fun _ => pure _

theorem params : Thrifty k params :=
  (expect _).bind fun _ => closedBy (.mark .parenClose) (fun _ => []) param.commaSeparated

theorem function (room : Nat) : Thrifty 1 (function room) :=
  current.bind fun _ => advance.bind fun _ => identifier.bind fun _ => (enter _ _).bind fun _ =>
    params.bind fun _ => (expect _).bind fun _ => datatype.bind fun _ => (retype _ _).bind fun _ =>
      ((expression room).block (statement room) (productive_entryStep (.expression room)
        (.statement room) (Hungry.statement room))).bind fun _ => pure _

theorem declaration (room : Nat) : Thrifty 1 (declaration room) :=
  current.bind fun _ => ite ((function room).bind fun _ => pure _)
    ((expression room).entry (statement room))

/-- A declaration that cannot be read is paid for by what is dropped of it. -/
theorem declarationStep (room : Nat) (body : List Stmt) :
    Thrifty 0 (declarationStep room body) := by
  intro s
  by_cases hend : s.current.lexeme = .endOfFile
  · exact .of_ok (declarationStep_of_end body hend) (.refl s)
  have hdeclaration := declaration room s
  cases hrun : Parser.declaration room s with
  | ok stmts s' =>
    rw [ThriftyAt, hrun] at hdeclaration
    exact .of_ok (declarationStep_of_ok body hend hrun) (hdeclaration.1.mono (Nat.zero_le 1))
  | error d s' =>
    rw [ThriftyAt, hrun] at hdeclaration
    have hstep := declarationStep_of_error body hend hrun
    have hsuffix := Orderly.pastSemicolon_suffix s'.last s'.ahead
    have hsuffix' := Orderly.pastBraces_suffix (pastSemicolon s'.last s'.ahead).1
      (pastSemicolon s'.last s'.ahead).2
    refine .of_ok hstep (hdeclaration.1.recover (hdeclaration.2 d s' rfl)
      (hsuffix'.trans hsuffix) (State.places_subset (hsuffix'.trans hsuffix) rfl ?_) rfl
      ((productive_declarationStep room).takes _ _ _ _ hstep))
    intro loc hloc
    rcases pastBraces_last _ _ loc hloc with h | ⟨t, ht, rfl⟩
    · exact pastSemicolon_last _ _ loc h
    · exact .inr ⟨t, hsuffix.subset ht, rfl⟩

theorem declarations (room : Nat) : Thrifty 0 (declarations room) :=
  iterate (declarationStep room) []

end Thrifty

end Parser

end Ember
