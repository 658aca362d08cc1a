import Ember.Proofs.Pieces.Joined

namespace Ember

/-- How statements of a session end: by themselves, with the value of the last expression among
them, or by a return of the program itself. -/
inductive Session.Ending where
  | finished (last : Value)
  | returned (value : Value)

namespace Session

/-- A statement that does not return leaves the value of the last expression before it. -/
def Ending.ofFlow (last : Value) : Flow → Ending
  | .next => .finished last
  | .returned value => .returned value

def Ending.value : Ending → Value
  | .finished last => last
  | .returned value => value

/-- How one statement ends, if the last expression before it had the value `last`. -/
def endingOf (setting : Setting) (last : Value) : Stmt → Exec Ending
  | .expr e _ => .finished <$> e.eval setting (Closure.invoke setting) scope
  | s => .ofFlow last <$> s.exec setting (Closure.invoke setting) scope

/-- How statements end that run one after the other. -/
def endingAll (setting : Setting) (last : Value) : List Stmt → Exec Ending
  | [] => return .finished last
  | s :: rest => do
    match ← endingOf setting last s with
    | .finished last => endingAll setting last rest
    | .returned value => return .returned value

theorem execAll_cons (setting : Setting) (last : Value) (s : Stmt) (rest : List Stmt) :
    execAll setting last (s :: rest) = do
      match ← endingOf setting last s with
      | .finished last => execAll setting last rest
      | .returned value => return value := by
  have hother : (do
      match ← s.exec setting (Closure.invoke setting) scope with
      | .next => execAll setting last rest
      | .returned value => return value) = (do
      match ← Ending.ofFlow last <$> s.exec setting (Closure.invoke setting) scope with
      | .finished last => execAll setting last rest
      | .returned value => return value) := by
    rw [bind_map_left]
    refine bind_congr fun flow => ?_
    cases flow <;> rfl
  cases s with
  | expr e loc => rw [execAll, endingOf, bind_map_left]
  | function | var | block | conditional | loop | returning => exact hother

/-- Statements behind others run if these end by themselves. -/
theorem execAll_append (setting : Setting) (last : Value) (before rest : List Stmt) :
    execAll setting last (before ++ rest) = do
      match ← endingAll setting last before with
      | .finished last => execAll setting last rest
      | .returned value => return value := by
  induction before generalizing last with
  | nil => simp only [List.nil_append, endingAll, pure_bind]
  | cons s before ih =>
    rw [List.cons_append, execAll_cons, endingAll, bind_assoc]
    refine bind_congr fun ending => ?_
    cases ending with
    | finished last => exact ih last
    | returned value => rfl

theorem execAll_eq (setting : Setting) (last : Value) (body : List Stmt) :
    execAll setting last body = Ending.value <$> endingAll setting last body := by
  rw [← List.append_nil body, execAll_append, List.append_nil, map_eq_pure_bind]
  refine bind_congr fun ending => ?_
  cases ending <;> rfl

/-- Endings of one kind. The values of the last expressions may differ: what stands before a piece
has left none in its session. -/
inductive Ending.Alike (r : Int → Int → Prop) (q : Location → Location → Prop) :
    Ending → Ending → Prop
  | finished (last last' : Value) : Ending.Alike r q (.finished last) (.finished last')
  | returned {v v' : Value} (h : v.Alike r q v') : Ending.Alike r q (.returned v) (.returned v')

variable {r : Int → Int → Prop} {q : Location → Location → Prop} {pre : Earlier}
  {setting setting' : Setting}

theorem Ending.alike_ofFlow {flow flow' : Flow} (h : flow.Alike r q flow') (last last' : Value) :
    (Ending.ofFlow last flow).Alike r q (Ending.ofFlow last' flow') := by
  cases h with
  | next => exact .finished last last'
  | returned hv => exact .returned hv

theorem alike_endingOf (hsetting : setting.Alike r setting') {s s' : Stmt}
    (hs : Stmt.Alike r q s s') (last last' : Value) :
    Exec.Alike r q pre (Ending.Alike r q) (endingOf setting last s)
      (endingOf setting' last' s') := by
  have hinvoke : Invoke.Alike r q pre (Closure.invoke setting) (Closure.invoke setting') :=
    .invokeWithin hsetting maxCalls
  have hother : Exec.Alike r q pre (Ending.Alike r q)
      (Ending.ofFlow last <$> s.exec setting (Closure.invoke setting) scope)
      (Ending.ofFlow last' <$> s'.exec setting' (Closure.invoke setting') scope) :=
    (Exec.Alike.exec hsetting hinvoke scope hs).map fun _ _ h => Ending.alike_ofFlow h last last'
  cases hs with
  | expr he _ => exact (Exec.Alike.eval hsetting hinvoke scope he).map fun v v' _ => .finished v v'
  | function | var | block | ifThen | ifElse | loop | returning => exact hother

theorem alike_endingAll (hsetting : setting.Alike r setting') :
    ∀ {body body' : List Stmt}, Stmt.AlikeAll r q body body' → ∀ last last' : Value,
      Exec.Alike r q pre (Ending.Alike r q) (endingAll setting last body)
        (endingAll setting' last' body')
  | _, _, .nil, last, last' => .pure (.finished last last')
  | _, _, .cons hs hrest, last, last' => by
    refine (alike_endingOf hsetting hs last last').bind fun ending ending' hending => ?_
    cases hending with
    | finished v v' => exact alike_endingAll hsetting hrest v v'
    | returned hv => exact .pure (.returned hv)

/-- The session with the names of a text. -/
def knowing (s : Session) (file : String) (source : Source) : Session :=
  { s with table := (Program.parse file source s.table).table }

/-- Parses an input into the table of the session and runs it there. -/
def input (s : Session) (options : RunOptions) (file : String) (source : Source) : Ran Value :=
  (s.knowing file source).exec options (Program.parse file source s.table).program

/-- Whether an input ends by itself: without an error, and without a return of the program. -/
def finishes (s : Session) (options : RunOptions) (file : String) (source : Source) : Bool :=
  let body := (Program.parse file source s.table).program.body
  let ran := (s.knowing file source).perform
    (endingAll ((s.knowing file source).setting options) .void body)
  match ran.result with
  | .ok (.finished _) => true
  | _ => false

end Session

namespace Ran

variable {α : Type}

/-- The run with what was printed and told before it. -/
def after (ran : Ran α) (output : String) (trace : List Event) : Ran α :=
  { ran with output := output ++ ran.output, trace := trace ++ ran.trace }

/-- The code and the message of what stopped a run, without its place. -/
def failure? (ran : Ran α) : Option (Option Code × String) :=
  match ran.result with
  | .ok _ => none
  | .error (.fault d) => some (some d.code, d.message)
  | .error h => some (none, h.message)

theorem Alike.failure?_eq {α' : Type} {r : Int → Int → Prop} {q : Location → Location → Prop}
    {R : α → α' → Prop} {ran : Ran α} {ran' : Ran α'} (h : ran.Alike r q R ran') :
    ran.failure? = ran'.failure? := by
  obtain ⟨hresult, -, -, -⟩ := h
  unfold failure?
  generalize ran.result = x, ran'.result = x' at hresult ⊢
  cases hresult with
  | ok _ => rfl
  | error hh =>
    cases hh with
    | refused | breach | exhausted => rfl
    | fault hd =>
      obtain ⟨hcode, -, hargs⟩ := hd
      simp only [Diagnostic.message, hcode, hargs]

end Ran

namespace Session

/-- Runs inputs one after the other. What they print is put together; the result is the one of the
last. -/
def feed (options : RunOptions) (file : String) : Session → List Source → Ran Value
  | s, [] => ⟨.ok .void, "", [], s⟩
  | s, [source] => s.input options file source
  | s, source :: next :: rest =>
    let ran := s.input options file source
    (feed options file ran.session (next :: rest)).after ran.output ran.trace

/-- Every input but the last ends by itself. -/
def feedable (options : RunOptions) (file : String) : Session → List Source → Bool
  | s, source :: next :: rest =>
    s.finishes options file source &&
      feedable options file (s.input options file source).session (next :: rest)
  | _, _ => true

variable {options : RunOptions} {file : String} {s : Session} {source : Source}

theorem table_input :
    (s.input options file source).session.table = (s.knowing file source).table := by
  unfold input exec perform
  split <;> rfl

theorem ended_input :
    (s.input options file source).ended =
      (Ending.value <$> endingAll ((s.knowing file source).setting options) .void
        (Program.parse file source s.table).program.body) ⟨s.frames, "", []⟩ := by
  rw [input, exec, ended_perform, execAll_eq]
  rfl

/-- An input that ends by itself leaves the machine that its statements leave. -/
theorem input_of_finishes (h : s.finishes options file source) :
    let body := (Program.parse file source s.table).program.body
    ∃ last m, endingAll ((s.knowing file source).setting options) .void body ⟨s.frames, "", []⟩ =
        .ok (.finished last) m ∧
      s.input options file source =
        ⟨.ok last, m.output, m.events.reverse, ⟨(s.knowing file source).table, m.frames⟩⟩ := by
  intro body
  obtain ⟨last, m, hend⟩ : ∃ last m, endingAll ((s.knowing file source).setting options) .void body
      ⟨s.frames, "", []⟩ = .ok (.finished last) m := by
    unfold finishes perform at h
    dsimp only at h
    split at h
    · rename_i last hresult
      split at hresult
      · rename_i ending m hend
        cases hresult
        exact ⟨last, m, hend⟩
      · cases hresult
    · cases h
  have hexec : execAll ((s.knowing file source).setting options) .void body ⟨s.frames, "", []⟩ =
      .ok last m := by
    rw [execAll_eq]
    simp only [Functor.map, EStateM.map, hend]
    rfl
  refine ⟨last, m, hend, ?_⟩
  have hframes : (s.knowing file source).frames = s.frames := rfl
  rw [input, exec, perform, hframes, hexec]

/-- What a run leaves corresponds also with what was printed and told before it. -/
theorem matched_after {α α' : Type} {R : α → α' → Prop} {ran : Ran α}
    {result : EStateM.Result Halt Machine α'} (output : String) (events : List Event)
    (h : Exec.Matched r q ⟨pre.output ++ output, events ++ pre.events⟩ R ran.ended result) :
    Exec.Matched r q pre R (ran.after output events.reverse).ended result := by
  obtain ⟨reached, printed, trace, session⟩ := ran
  have hafter : ∀ m', Machine.Alike r q ⟨pre.output ++ output, events ++ pre.events⟩
      ⟨session.frames, printed, trace.reverse⟩ m' →
      Machine.Alike r q pre
        ⟨session.frames, output ++ printed, (events.reverse ++ trace).reverse⟩ m' := by
    intro m' hm
    refine ⟨hm.size, hm.frames, ?_, ?_⟩
    · rw [← hm.output, String.append_assoc]
    · rw [← hm.events]
      simp
  unfold Ran.ended at h ⊢
  unfold Ran.after
  cases reached with
  | ok a =>
    cases h with
    | ok ha hm => exact .ok ha (hafter _ hm)
  | error halt =>
    cases h with
    | error hh hm => exact .error hh (hafter _ hm)

section

variable {table : SymbolTable} (htable : table.Distinct) (hs : s.table.Distinct)
  {body : List Stmt} (hbody : Program.Renders file table body source) {m' : Machine}
  (hm : Machine.Alike (s.table.SameName table) (fun _ _ => True) pre ⟨s.frames, "", []⟩ m')

include htable hs hbody in
/-- A piece ends in its session as its statements end in the whole program. -/
theorem alike_piece (last : Value) :
    Exec.Alike ((s.knowing file source).table.SameName table) (fun _ _ => True) pre
      (Ending.Alike ((s.knowing file source).table.SameName table) fun _ _ => True)
      (endingAll ((s.knowing file source).setting options) .void
        (Program.parse file source s.table).program.body)
      (endingAll ⟨table, options.budget, options.traced, options.refusal⟩ last body) := by
  obtain ⟨hknown, -⟩ := @Program.table_parse file source s.table hs
  have hsetting : ((s.knowing file source).setting options).Alike
      ((s.knowing file source).table.SameName table)
      ⟨table, options.budget, options.traced, options.refusal⟩ :=
    ⟨SymbolTable.SameName.eq_iff hknown htable, id, rfl, rfl, rfl⟩
  exact alike_endingAll hsetting (hbody s.table) .void last

include hs hm in
theorem alike_knowing (file : String) (source : Source) :
    Machine.Alike ((s.knowing file source).table.SameName table) (fun _ _ => True) pre
      ⟨s.frames, "", []⟩ m' := by
  obtain ⟨-, hkeeps⟩ := @Program.table_parse file source s.table hs
  exact hm.widen fun _ _ hsame => hsame.mono hkeeps (.refl table)

include htable hs hbody hm in
/-- Past a piece that ends by itself the session corresponds to the whole program again: what the
piece has printed and told is now behind it. -/
theorem step_feed (hfinish : s.finishes options file source) (last : Value) :
    let ran := s.input options file source
    ran.session.table.Distinct ∧ ∃ v m₁,
      endingAll ⟨table, options.budget, options.traced, options.refusal⟩ last body m' =
        .ok (.finished v) m₁ ∧
      Machine.Alike (ran.session.table.SameName table) (fun _ _ => True)
        ⟨pre.output ++ ran.output, ran.trace.reverse ++ pre.events⟩ ⟨ran.session.frames, "", []⟩
        m₁ := by
  intro ran
  obtain ⟨v, m, hend, hinput⟩ := input_of_finishes hfinish
  have hran : ran =
      ⟨.ok v, m.output, m.events.reverse, ⟨(s.knowing file source).table, m.frames⟩⟩ := hinput
  have hmatched := @alike_piece pre options file s source table htable hs body hbody last _ _
    (alike_knowing hs hm file source)
  rw [hend] at hmatched
  generalize endingAll ⟨table, _, _, _⟩ last body m' = result at hmatched ⊢
  rw [hran]
  refine ⟨(@Program.table_parse file source s.table hs).1, ?_⟩
  cases hmatched with
  | @ok _ _ _ m₁ hending hm₁ =>
    cases hending with
    | finished _ v' =>
      refine ⟨v', m₁, rfl, hm₁.size, hm₁.frames, ?_, ?_⟩
      · rw [← hm₁.output, String.append_empty]
      · rw [← hm₁.events, List.reverse_reverse, List.nil_append]

end

/-- A session that is fed a program in pieces ends like the whole program. The induction is on the
pieces that are left; of those before, only what they have printed and told and the frames they
leave matter. -/
theorem matched_feed {table : SymbolTable} (htable : table.Distinct)
    {sections : List (List Stmt)} {sources : List Source}
    (hsections : List.Forall₂ (Program.Renders file table) sections sources) (hs : s.table.Distinct)
    {m' : Machine} (hm : Machine.Alike (s.table.SameName table) (fun _ _ => True) pre
      ⟨s.frames, "", []⟩ m') (hfeed : feedable options file s sources) (last : Value) :
    let ran := feed options file s sources
    Exec.Matched (ran.session.table.SameName table) (fun _ _ => True) pre (fun _ _ => True)
      ran.ended (execAll ⟨table, options.budget, options.traced, options.refusal⟩ last
        sections.flatten m') := by
  induction hsections generalizing s pre m' last with
  | nil => exact .ok trivial hm
  | @cons body source sections sources hbody hrest ih =>
    intro ran
    cases sources with
    | nil =>
      cases hrest
      have hran : ran = s.input options file source := rfl
      rw [hran, table_input, ended_input, List.flatten_cons, List.flatten_nil, List.append_nil,
        execAll_eq]
      exact (alike_piece htable hs hbody last).map (fun _ _ _ => trivial) _ _
        (alike_knowing hs hm file source)
    | cons next rest =>
      rw [feedable, Bool.and_eq_true] at hfeed
      obtain ⟨hdistinct, v, m₁, hend, hm₁⟩ := step_feed htable hs hbody hm hfeed.1 last
      have hlater := ih hdistinct hm₁ hfeed.2 v
      have hran : ran = (feed options file (s.input options file source).session
          (next :: rest)).after (s.input options file source).output
            (s.input options file source).trace.reverse.reverse := by
        rw [List.reverse_reverse]
        rfl
      rw [List.flatten_cons, execAll_append, hran]
      simp only [Bind.bind, EStateM.bind, hend]
      exact matched_after _ _ hlater

/-- A program fed in pieces is the program fed whole. Texts that are programs, one below the other,
are the program of all their statements, in their order. If every piece but the last ends by itself,
then the session that is fed the pieces prints what a new session prints that is fed them joined; at
the end both bind the same names to the same values, in the frame of the program and in all others;
and they fail with the same code and message, or not at all. -/
theorem feed_joined (file : String) {sources : List Source}
    (hclean : ∀ source ∈ sources, (Program.parse file source .empty).report = []) :
    (∀ table : SymbolTable,
      let parsed := Program.parse file (Source.joined sources) table
      parsed.report = [] ∧ ∃ sections : List (List Stmt), parsed.program.body = sections.flatten ∧
        List.Forall₂ (Program.Renders file parsed.table) sections sources) ∧
    ∀ table table' : SymbolTable, table.Built → table'.Built → ∀ options : RunOptions,
      feedable options file (start table) sources →
      let ran := feed options file (start table) sources
      let whole := (start table').input options file (Source.joined sources)
      ran.output = whole.output ∧
        (∀ i : Nat, Frame.Alike (ran.session.table.SameName whole.session.table) (fun _ _ => True)
          (ran.session.frames[i]?.getD []) (whole.session.frames[i]?.getD [])) ∧
        ran.failure? = whole.failure? := by
  refine ⟨Program.parse_joined hclean, fun table table' ht ht' options hfeed => ?_⟩
  intro ran whole
  let parsed := Program.parse file (Source.joined sources) (start table').table
  obtain ⟨-, sections, hbody, hsections⟩ := Program.parse_joined hclean (start table').table
  obtain ⟨hdistinct, hkeeps⟩ :=
    @Program.table_parse file (Source.joined sources) _ (distinct_start ht'.distinct)
  have hstart := (@alike_start (fun _ _ => True) table table').widen fun _ _ hsame =>
    hsame.mono (.refl _) hkeeps
  have hmatched := matched_feed hdistinct hsections (distinct_start ht.distinct) hstart hfeed .void
  have hended : whole.ended =
      execAll ⟨parsed.table, options.budget, options.traced, options.refusal⟩ .void parsed.program.body ⟨(start table').frames, "", []⟩ := ended_perform _ _
  have htable : whole.session.table = parsed.table := table_input
  rw [← hbody, ← hended] at hmatched
  have hran := Ran.alike_of_matched hmatched
  rw [htable]
  exact ⟨hran.output, hran.frames.frames, hran.failure?_eq⟩

/-- A comment, a conditional and a function end the lines of the pieces, and the last piece divides
by what the function has made of a variable of the first. -/
theorem feed_joined_division :
    let sources := ["int8 x = 3; // three", "fn f(int8 n): int8 { x = x - 1; return n / x; }",
      "if (x) print(f(4));", "/* else */ print(f(4)); print(f(x)); print(1);"].map Source.ofString
    let options : RunOptions := ⟨9, false, none⟩
    let ran := feed options "m" (start .empty) sources
    let whole := (start .empty).input options "m" (Source.joined sources)
    (∀ source ∈ sources, (Program.parse "m" source .empty).report = []) ∧
      feedable options "m" (start .empty) sources ∧
      ran.output = whole.output ∧ ran.failure? = whole.failure? ∧ whole.output = "2\n4\n" ∧
      whole.failure? = some (some .divisionByZero, "Division by zero") := by
  intro sources options ran whole
  have hclean : ∀ source ∈ sources, (Program.parse "m" source .empty).report = [] := by
    decide +kernel
  have hfeed : feedable options "m" (start .empty) sources := by decide +kernel
  obtain ⟨-, hrun⟩ := feed_joined "m" hclean
  obtain ⟨houtput, -, hfailure⟩ := hrun .empty .empty .empty .empty options hfeed
  exact ⟨hclean, hfeed, houtput, hfailure, by decide +kernel⟩

end Session

end Ember
