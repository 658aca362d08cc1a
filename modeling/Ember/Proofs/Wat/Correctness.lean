import Ember.Proofs.Wat.Decoding
import Ember.Proofs.Wat.Simulation

namespace Ember

/-- The exit code of a program whose statements end so. -/
def Flow.exitCode : Flow → Int64
  | .next => 0
  | .returned v => v.exitCode

namespace Wat

open Exec

section

variable (calls : Calls) (rounds : Nat)

theorem Store.setLocal_self {s : Store} {x : Local} {w : Int64} (h : s.locals x = some w) :
    s.setLocal x w = s := by
  have hlocals : (fun y => if y = x then some w else s.locals y) = s.locals := by
    funext y
    split
    · rename_i hy
      rw [hy, h]
    · rfl
  rw [Store.setLocal, hlocals]

/-- A parameter is wrapped to its type, for some types without an instruction. -/
theorem takes_narrowParam {s : Store} (type : Datatype) {i : Nat} {w : Int64}
    (h : s.locals (.param i) = some w) :
    Takes calls rounds
      (match narrowing type with
        | [] => []
        | code => .localGet (.param i) :: code ++ [.localSet (.param i)])
      [] s [] (s.setLocal (.param i) (type.narrow w)) := by
  have hnarrow : Takes calls rounds (narrowing type) [.i64 w] s [.i64 (type.narrow w)] s :=
    Takes.narrowing type w
  split
  · rename_i hnone
    rw [hnone] at hnarrow
    have hword := hnarrow.run_eq
    simp only [Instr.runAll, Except.ok.injEq, Prod.mk.injEq, State.mk.injEq, List.cons.injEq,
      Operand.i64.injEq, and_true, true_and] at hword
    rw [← hword, Store.setLocal_self h]
    exact Takes.nil
  · exact ((Takes.localGet h).append hnarrow).append
      (Takes.localSet (Option.isSome_iff_exists.2 ⟨w, h⟩))

/-- Parameters are wrapped one after the other. -/
theorem takes_narrowParams {params : List Param} {words : List Int64} (index : Nat)
    (hlength : words.length = params.length) {s : Store}
    (hs : ∀ x ∈ words.zipIdx index, s.locals (.param x.2) = some x.1) :
    ∃ locals, Takes calls rounds
        ((params.zipIdx index).flatMap fun (p, i) =>
          match narrowing p.type with
          | [] => []
          | code => .localGet (.param i) :: code ++ [.localSet (.param i)])
        [] s [] { s with locals } ∧
      (∀ x ∈ (params.zip words).zipIdx index,
        locals (.param x.2) = some (x.1.1.type.narrow x.1.2)) ∧
      (∀ i < index, locals (.param i) = s.locals (.param i)) ∧
      ∀ i, locals (.temp i) = s.locals (.temp i) := by
  induction params generalizing words index s with
  | nil => exact ⟨s.locals, Takes.nil, by simp, fun _ _ => rfl, fun _ => rfl⟩
  | cons p params ih =>
    cases words with
    | nil => cases hlength
    | cons w words =>
      have hhead := takes_narrowParam calls rounds p.type (hs (w, index) List.mem_cons_self)
      obtain ⟨locals, htakes, hset, hbefore, htemps⟩ := ih (index + 1) (Nat.succ.inj hlength)
        (s := s.setLocal (.param index) (p.type.narrow w)) fun x hx => by
          have hne : Local.param x.2 ≠ .param index := by
            have hle := List.le_snd_of_mem_zipIdx hx
            rintro ⟨⟩
            omega
          exact (if_neg hne).trans (hs x (List.mem_cons_of_mem _ hx))
      refine ⟨locals, hhead.append htakes, ?_, fun i hi => ?_, htemps⟩
      · rintro x (_ | ⟨_, hx⟩)
        · exact (hbefore index (Nat.lt_succ_self _)).trans (if_pos rfl)
        · exact hset x hx
      · have hne : Local.param i ≠ .param index := by
          rintro ⟨⟩
          omega
        exact (hbefore i (Nat.lt_succ_of_lt hi)).trans (if_neg hne)

theorem popWords_onStack (words : List Int64) (stack : List Operand) :
    popWords words.length (onStack words ++ stack) = some (words, stack) := by
  induction words using List.reverseRecOn with
  | nil => rfl
  | append_singleton words w ih =>
    have hstack : onStack (words ++ [w]) = .i64 w :: onStack words := by simp [onStack]
    rw [hstack, List.length_append, List.length_singleton, List.cons_append, popWords, ih]
    rfl

end

section

variable {declared : Declared} {body : List Stmt} {module : Module} {setting : Setting}

/-- Parameters are bound to the values that the words stand for. -/
theorem lands_bind_agrees {role : Role} {limit : Nat} {m : Machine} {s : Store} {scope : Scope}
    {rest : List Scope} {frame : Nat} {frames : List Nat} {params : List Param}
    {args : List Value} {words : List Int64} (index : Nat)
    (hlength : args.length = params.length) (hwords : WordsOf args words)
    (htypes : ∀ p ∈ params, p.type.IsWord) (hframe : frame ≠ 0)
    (hs : ∀ x ∈ (params.zip words).zipIdx index,
      s.locals (.param x.2) = some (x.1.1.type.narrow x.1.2))
    (hsite : Mirrors (globalsIn body) m role (scope :: rest) (frame :: frames))
    (hagrees : Agrees body "" limit (scope :: rest) (frame :: frames) m s) :
    (Closure.bind (frame :: frames) params args).Lands m fun _ m' =>
      Agrees body "" limit
        ((((params.zipIdx index).map fun (p, i) => (p.id, ⟨.local (.param i), p.type⟩)).reverse ++
          scope) :: rest) (frame :: frames) m' s := by
  induction params generalizing args words index scope m with
  | nil => exact Lands.pure hagrees
  | cons p params ih =>
    cases hwords with
    | nil => cases hlength
    | @cons v w args words hword hwords =>
      obtain ⟨htype, htypes⟩ := List.forall_mem_cons.1 htypes
      refine (Lands.declare frame frames p.id p.type v).bind ?_
      rintro _ _ rfl
      have hholds := Value.holds_narrow htype hword
      have hdeclared := hagrees.declareLocal (b := ⟨v.narrow p.type, p.type⟩) hsite hframe p.id
        (hs ((p, w), index) List.mem_cons_self) hholds
      refine (ih (index + 1) (Nat.succ.inj hlength) hwords htypes
        (fun x hx => hs x (List.mem_cons_of_mem _ hx))
        (hsite.declareLocal hframe p.id (.param index) _) hdeclared).mono fun _ m' h => ?_
      simpa using h

theorem callWithin_host (rounds depth : Nat) (f : FuncRef) (hf : ∀ id, f ≠ .user id) :
    module.callWithin rounds depth f = hostCall f := by
  funext s
  cases f with
  | user id => exact absurd rfl (hf id)
  | printI64 | printU64 | printBool | printSpace | printNewline => cases depth <;> rfl

/-- Each parameter has a local variable of its own. -/
theorem tidy_entry (f : FunctionDecl) : f.entry.Tidy := by
  have hlocals : localsOf f.entry.scopes =
      ((List.range' 0 f.params.length).map Local.param).reverse := by
    rw [← List.zipIdx_map_snd 0 f.params, List.map_map]
    simp [FunctionDecl.entry, localsOf, Scope.locals, paramScope, List.filterMap_reverse,
      Place.local?, Function.comp_def]
  refine ⟨?_, fun i hi => ?_⟩
  · rw [hlocals, List.nodup_reverse]
    exact (List.nodup_range' 1).map fun _ _ => Local.param.inj
  · rw [hlocals] at hi
    simp at hi

/-- What a function leaves on the stack of its caller, given how its body ends. -/
theorem call_eq {calls : Calls} {rounds : Nat} {f : Func} {words : List Int64} {s : Store}
    {ended : Ending × State} {w : Int64} {s' : Store} (hparams : f.params = words.length)
    (hrun : Instr.runAll calls rounds f.body ⟨[], { s with locals := entryLocals words f.locals }⟩ =
      .ok ended) (hended : resultOf ended = .ok (w, s')) (stack : List Operand) :
    f.call calls rounds ⟨onStack words ++ stack, s⟩ =
      .ok ⟨.i64 w :: stack, { s' with locals := s.locals }⟩ := by
  simp only [Func.call, hparams, popWords_onStack, runBody, hrun]
  change (resultOf ended >>= _) = _
  rw [hended]
  rfl

/-- The body of a function is run where its parameters are bound, in a scope inside theirs. -/
theorem ends_body {rounds room : Nat} {calls : Calls} (hbudget : setting.budget ≤ rounds)
    (hprogram : Unambiguous declared body module)
    (hfunctions : FunctionsSupported declared.table body)
    (hcalls : Reproduces declared body (Closure.invokeWithin setting room)
      (Closure.courseWithin setting room) calls) {g : Closure} {f : FunctionDecl}
    {args : List Value} {words : List Int64} {code : List Instr} {p : Progress} {m : Machine}
    {s : Store} (himp : Implements body g f)
    (hcode : LowersStmts declared (.function f.result) f.entry g.body code p)
    (hlength : args.length = f.params.length) (hwords : WordsOf args words)
    (hset : ∀ x ∈ (f.params.zip words).zipIdx,
      s.locals (.param x.2) = some (x.1.1.type.narrow x.1.2))
    (hfaith : Faithful declared body m) (hroot : 0 < m.frames.size)
    (hagrees : Agrees body "" p.locals [] [0] m s) :
    (inFrame setting g.scope fun scope => do
        Closure.bind scope g.params args
        note setting (.exec .block)
        inFrame setting scope fun scope =>
          Stmt.execAll setting (Closure.invokeWithin setting room) scope g.body).Ends
      (Course.inFrame setting g.scope fun scope =>
        Course.after (Closure.bind scope g.params args) fun _ =>
          Course.after (note setting (.exec .block)) fun _ =>
            Course.inFrame setting scope fun scope =>
              Stmt.courseAll setting (Closure.invokeWithin setting room)
                (Closure.courseWithin setting room) scope g.body) m
      (Finishes (Does calls rounds code s) body (.function f.result)
        (Agrees body "" p.locals [] [0])) := by
  obtain ⟨hparams, hresult, hstmts⟩ := hprogram.printable_function himp
  obtain ⟨hnotVoid, hsupported⟩ := hfunctions.of_implements himp
  have hnot : ¬f.entry.IsTop (.function f.result) := nofun
  have hcall : Mirrors (globalsIn body) m (.function f.result) [] [0] := .function hroot
  rw [himp.scope_eq, himp.params_eq]
  refine ends_inFrame hfaith hcall hagrees (fun m frame hframe hfaith hsite hagrees => ?_)
    fun _ _ events h => h.of_events events
  have hbound := (lands_bind 0 hlength hframe hfaith hsite).and
    (lands_bind_agrees 0 hlength hwords (fun q hq => ⟨(hparams q hq).1, hnotVoid q hq⟩) hframe hset
      hsite hagrees)
  refine Ends.after hbound ?_
  rintro _ m' ⟨⟨hkeeps, hsite⟩, hagrees⟩
  refine Ends.note fun events => ?_
  have htold : Keeps declared body none (frame :: [0]) m' { m' with events } :=
    .of_frames hkeeps.faithful rfl
  refine ends_inFrame htold.faithful (hsite.evolve htold.evolves) (hagrees.of_machine rfl rfl)
    (fun m inner _ hfaith hsite hagrees => ?_) fun _ _ events h => h.of_events events
  rw [List.append_nil] at hsite hagrees
  refine (ends_execAll hbudget hprogram (lawful_invokeWithin setting hprogram.toAdmissible room)
    hcalls (fun _ h => Role.function.inj h ▸ hresult) hcode hstmts hsupported
    (fun h => absurd h hnot) (tidy_entry f) (Nat.le_refl _) hfaith hsite hagrees).mono ?_
  intro flow m'' hfinishes
  refine hfinishes.imp_next fun _ s' hagrees' => ?_
  obtain ⟨scope, rest, hscopes⟩ := List.exists_cons_of_ne_nil (hcode.grows.scopes_ne nofun)
  have htail := hcode.grows.tail_eq
  rw [hscopes] at hagrees' htail
  rw [show rest = [paramScope f.params] from htail] at hagrees'
  exact hagrees'.leave.leave

/-- A call of a function is what its instructions do with the words of the arguments. -/
theorem ends_invoke {rounds room depth : Nat} (hbudget : setting.budget ≤ rounds)
    (hprogram : Unambiguous declared body module)
    (hfunctions : FunctionsSupported declared.table body)
    (hcalls : Reproduces declared body (Closure.invokeWithin setting room)
      (Closure.courseWithin setting room) (module.callWithin rounds depth))
    {g : Closure} {f : FunctionDecl} {args : List Value} {words : List Int64} {loc : Location}
    {m : Machine} {s : Store} (hf : f ∈ declared.functions) (himp : Implements body g f)
    (hlength : args.length = f.params.length) (hwords : WordsOf args words)
    (hfaith : Faithful declared body m) (hroot : 0 < m.frames.size)
    (hagrees : RootAgrees body "" m s) :
    (Closure.invokeWithin setting (room + 1) g args loc).Ends
      (Closure.courseWithin setting (room + 1) g args) m fun v m' => ∃ w s',
        (∀ stack, module.callWithin rounds (depth + 1) (.user f.id) ⟨onStack words ++ stack, s⟩ =
          .ok ⟨.i64 w :: stack, s'⟩) ∧
        s'.locals = s.locals ∧ RootAgrees body "" m' s' ∧
        (f.result ≠ .void → v.Holds f.result w) := by
  obtain ⟨func, hfind, code, p, hlowers, rfl⟩ := hprogram.lowersFunction hf
  have hcount : words.length = f.params.length := hwords.length_eq.symm.trans hlength
  have hresult := (hprogram.printable_function himp).2.1
  -- Parameters are wrapped before the body begins, in the store of the call.
  obtain ⟨locals, hentry, hset, _, htemps⟩ := takes_narrowParams
    (module.callWithin rounds depth) rounds 0 hcount
    (s := { s with locals := entryLocals words p.locals })
    fun x hx => (List.mem_zipIdx_iff_getElem?.1 hx : words[x.2]? = some x.1)
  have hbegin : Agrees body "" p.locals [] [0] m { s with locals } :=
    ⟨⟨hagrees.output_eq, hagrees.placed, hagrees.globals⟩, fun i hi => by
      simp [htemps i, entryLocals, hi], nofun⟩
  have hcall : ∀ {ended : Ending × State} {w : Int64} {s' : Store},
      Instr.runAll (module.callWithin rounds depth) rounds (code ++ [.const 0])
        ⟨[], { s with locals }⟩ = .ok ended → resultOf ended = .ok (w, s') → ∀ stack,
      module.callWithin rounds (depth + 1) (.user f.id) ⟨onStack words ++ stack, s⟩ =
        .ok ⟨.i64 w :: stack, { s' with locals := s.locals }⟩ := by
    intro ended w s' hrun hended stack
    have hwhole : Instr.runAll (module.callWithin rounds depth) rounds
        (narrowParams f.params ++ code ++ [.const 0])
        ⟨[], { s with locals := entryLocals words p.locals }⟩ = .ok ended := by
      rw [List.append_assoc]
      exact (runAll_append_of_next hentry.run_eq).trans hrun
    simp only [Module.callWithin, hfind]
    exact call_eq hcount.symm hwhole hended stack
  refine Ends.note fun events => Ends.bind_last ((ends_body hbudget hprogram hfunctions hcalls himp
    (FunctionDecl.lowers hlowers himp.body_eq) hlength hwords hset
    (Keeps.of_frames hfaith rfl : Keeps declared body none [0] m { m with events }).faithful hroot
    (hbegin.of_machine rfl rfl)).mono ?_)
  intro flow m' hfinishes
  cases flow with
  | next =>
    obtain ⟨s', hdoes, hagrees'⟩ := hfinishes
    refine Ends.pure ⟨0, _, hcall (Takes.append hdoes (Takes.const 0)).run_eq rfl, rfl,
      ⟨hagrees'.output_eq, hagrees'.placed, hagrees'.globals⟩, fun hne => ?_⟩
    rw [Closure.resultOf, himp.result_eq, if_neg hne]
    exact Value.holds_zero ⟨hresult, hne⟩
  | returned v =>
    obtain ⟨w, s', hdoes, hagrees', hanswers⟩ := hfinishes
    obtain ⟨rest, hrun⟩ := hdoes.append_of_left [.const 0] []
    refine Ends.pure ⟨w, _, hcall hrun rfl, rfl,
      ⟨hagrees'.output_eq, hagrees'.placed, hagrees'.globals⟩, fun hne => ?_⟩
    rw [Closure.resultOf, himp.result_eq, if_neg hne]
    exact hanswers hne

/-- Calls in the module do what calls of the program's functions do, as deep as they nest. -/
theorem reproduces_callWithin {rounds : Nat} (hbudget : setting.budget ≤ rounds)
    (hprogram : Unambiguous declared body module)
    (hfunctions : FunctionsSupported declared.table body) (room : Nat) {depth : Nat}
    (hle : room ≤ depth) :
    Reproduces declared body (Closure.invokeWithin setting room)
      (Closure.courseWithin setting room) (module.callWithin rounds depth) := by
  induction room generalizing depth with
  | zero =>
    refine ⟨callWithin_host rounds depth, ?_⟩
    intro g f args words loc m s _ _ _ _ _ _ _ v m' hrun
    cases hrun
  | succ room ih =>
    obtain ⟨depth, rfl⟩ : ∃ d, depth = d + 1 := ⟨depth - 1, by omega⟩
    refine ⟨callWithin_host rounds (depth + 1), ?_⟩
    intro g f args words loc m s hf himp hlength hwords hfaith hroot hagrees
    exact ends_invoke hbudget hprogram hfunctions (ih (Nat.le_of_succ_le_succ hle)) hf himp hlength
      hwords
      hfaith hroot hagrees

/-- The store with which a module starts agrees with the machine on which a program does. -/
theorem agrees_startMachine (hprogram : Unambiguous declared body module) (limit : Nat) :
    Agrees body "" limit Progress.start.scopes Session.scope (startMachine declared.table)
      ⟨entryLocals [] limit, fun id => if id ∈ module.globals then some 0 else none, ""⟩ := by
  refine ⟨⟨rfl, fun id hid => ?_, fun id type b hmem hfind => ?_⟩, fun i hi => ?_, ?_⟩
  · have hglobal : id ∈ module.globals := hprogram.globals_eq ▸ hprogram.globalsOf.ids hid
    simp [hglobal]
  · have hframe : (startMachine declared.table).frameAt 0 =
        [(printId declared.table, ⟨.func .print, .empty⟩)] := rfl
    rw [hframe, Frame.find?_cons] at hfind
    split at hfind
    · rename_i hid
      exact absurd (hid ▸ List.mem_map_of_mem hmem) hprogram.printId_notMem
    · cases hfind
  · simp [entryLocals, hi]
  · intro scope frame id slot x hmem hslot
    cases List.mem_singleton.1 hmem
    cases hslot

/-- A program that ends is lowered to a module that ends with the same output and exit code. -/
theorem execute_eq (hprogram : Translated declared body module) {rounds depth : Nat}
    (hbudget : setting.budget ≤ rounds) (hdepth : maxCalls ≤ depth) {flow : Flow} {m : Machine}
    (hrun : Stmt.execAll setting (Closure.invoke setting) Session.scope body
      (startMachine declared.table) = .ok flow m)
    (havoid : ∀ x ∈ Stmt.courseAll setting (Closure.invoke setting) (Closure.course setting)
      Session.scope body (startMachine declared.table), ¬x.Overflows) :
    module.execute rounds depth =
      .ok (flow.exitCode, m.output) := by
  obtain ⟨code, p, hcode, hlocals, hbody⟩ := hprogram.start
  have htidy : Progress.start.Tidy := ⟨List.nodup_nil, nofun⟩
  have hstart : ∀ result, Role.start = .function result → result.keyword?.isSome := nofun
  have hfinishes := ends_execAll hbudget hprogram.toUnambiguous
    (lawful_invokeWithin setting hprogram.toAdmissible maxCalls)
    (reproduces_callWithin hbudget hprogram.toUnambiguous hprogram.functions maxCalls hdepth) hstart
    hcode hprogram.printable
    hprogram.supported (fun _ _ h => h) htidy (Nat.le_refl _)
    (faithful_startMachine declared body) (mirrors_startMachine _ declared.table)
    (agrees_startMachine hprogram.toUnambiguous p.locals) flow m hrun havoid
  have hexecute : ∀ {ended : Ending × State} {w : Int64} {s : Store},
      Instr.runAll (module.callWithin rounds depth) rounds (code ++ [.const 0])
        ⟨[], entryLocals [] p.locals, fun id => if id ∈ module.globals then some 0 else none, ""⟩ =
          .ok ended → resultOf ended = .ok (w, s) → s.output = m.output →
      module.execute rounds depth = .ok (w, m.output) := by
    intro ended w s hended hresult houtput
    simp only [Module.execute, runBody, hbody, hlocals, hended]
    change (resultOf ended >>= _) = _
    rw [hresult, ← houtput]
    rfl
  cases flow with
  | next =>
    obtain ⟨s, hdoes, hagrees⟩ := hfinishes
    exact hexecute (Takes.append hdoes (Takes.const 0)).run_eq rfl
      (hagrees.output_eq.trans (String.append_empty))
  | returned v =>
    obtain ⟨w, s, hdoes, hagrees, hanswers⟩ := hfinishes
    obtain ⟨rest, hleft⟩ := hdoes.append_of_left [.const 0] []
    rw [Flow.exitCode, show v.exitCode = w from hanswers]
    exact hexecute hleft rfl (hagrees.output_eq.trans (String.append_empty))

end

end Wat

namespace Session

theorem perform_eq_ok {α : Type} {s : Session} {action : Exec α} {a : α}
    (h : (s.perform action).result = .ok a) :
    ∃ m, action ⟨s.frames, "", []⟩ = .ok a m ∧ (s.perform action).output = m.output := by
  unfold perform at h ⊢
  cases hrun : action ⟨s.frames, "", []⟩ with
  | ok a' m =>
    rw [hrun] at h
    cases h
    exact ⟨m, rfl, rfl⟩
  | error e m =>
    rw [hrun] at h
    cases h

theorem run_eq_ok {s : Session} {options : RunOptions} {p : Program} {code : Int64}
    (h : (s.run options p).result = .ok code) :
    ∃ flow m, Stmt.execAll ((start s.table).setting options)
        (Closure.invoke ((start s.table).setting options)) scope p.body (Wat.startMachine s.table) =
          .ok flow m ∧
      code = flow.exitCode ∧ (s.run options p).output = m.output := by
  obtain ⟨m, hrun, houtput⟩ := perform_eq_ok h
  obtain ⟨flow, m', hexec, hcode⟩ := Exec.bind_eq_ok hrun
  refine ⟨flow, m', hexec, ?_⟩
  cases flow with
  | next =>
    cases hcode
    exact ⟨rfl, houtput⟩
  | returned v =>
    cases hcode
    exact ⟨rfl, houtput⟩

/-- A program of the supported kind that was read without a diagnostic and that ends, without a
division that overflows, is lowered to the text of a module that ends with the same exit code and the
same output, if its loops are given as many rounds and its calls as much depth as the program
took. -/
theorem execute_of_run {file : String} {source : Source} {table : SymbolTable}
    (hclean : (Program.parse file source table).report = [])
    (hsupported : (Program.parse file source table).program.Supported
      (Program.parse file source table).table) {text : String}
    (hwat : (Program.parse file source table).program.toWat (Program.parse file source table).table
      = .ok text) (s : Session) (hs : s.table = (Program.parse file source table).table)
    (options : RunOptions) {code : Int64}
    (hrun : (s.run options (Program.parse file source table).program).result = .ok code)
    (havoid : ∀ x ∈ s.runCourse options (Program.parse file source table).program, ¬x.Overflows) :
    ∃ module, Wat.Module.ofText? text = some module ∧
      ∀ rounds depth, options.budget ≤ rounds → maxCalls ≤ depth →
        module.execute rounds depth =
          .ok (code, (s.run options (Program.parse file source table).program).output) := by
  obtain ⟨module, hmodule, htext⟩ := Wat.Except.bind_eq_ok.1 hwat
  obtain ⟨declared, htable, hprogram⟩ := Wat.translated_of_lowerProgram hclean hsupported hmodule
  cases htext
  refine ⟨module, module.ofText?_render, fun rounds depth hbudget hdepth => ?_⟩
  obtain ⟨flow, m, hexec, rfl, houtput⟩ := run_eq_ok hrun
  unfold runCourse at havoid
  rw [hs, ← htable] at hexec havoid
  rw [houtput]
  exact Wat.execute_eq hprogram hbudget hdepth hexec havoid

/-- Words of several types, a function without a result, recursion, and a loop. -/
theorem execute_of_run_factorial :
    let parsed := Program.parse "m" (Source.ofString
      ("uint64 g=2;fn f(uint8 n):void{print(n>1,n,g);}" ++
        "fn h(int8 n):int8{if(n)return n*h(n-1);return 1;}" ++
        "while(g){f(g*200);g-=1;}return h(3);")) .empty
    let session : Session := { start .empty with table := parsed.table }
    let ran := session.run ⟨9, false, none⟩ parsed.program
    parsed.report = [] ∧ parsed.program.Supported parsed.table ∧
      (∀ x ∈ session.runCourse ⟨9, false, none⟩ parsed.program, ¬x.Overflows) ∧
      ran.result = .ok 6 ∧ ran.output = "true 144 2\ntrue 200 1\n" ∧
      ∃ text, ∃ module : Wat.Module, parsed.program.toWat parsed.table = .ok text ∧
        Wat.Module.ofText? text = some module ∧ ∀ rounds depth, 9 ≤ rounds → maxCalls ≤ depth →
          module.execute rounds depth = .ok (6, ran.output) := by
  intro parsed session ran
  -- One evaluation, so that the text is read once.
  obtain ⟨hclean, hnodup, hnoPrint, hstmts, havoid, hlowered, hcode, houtput⟩ :
      parsed.report = [] ∧ (parsed.program.functionIds ++ parsed.program.variableIds).Nodup ∧
        (∀ id ∈ parsed.program.functionIds ++ parsed.program.variableIds,
          parsed.table.nameOf id ≠ "print") ∧
        (∀ s ∈ parsed.program.body, s.isSupported parsed.table parsed.program.body .start) ∧
        (∀ x ∈ session.runCourse ⟨9, false, none⟩ parsed.program, ¬x.Overflows) ∧
        (parsed.program.toWat parsed.table).isOk = true ∧ ran.result.toOption = some 6 ∧
        ran.output = "true 144 2\ntrue 200 1\n" := by
    decide +kernel
  have hsupported : parsed.program.Supported parsed.table := ⟨hnodup, hnoPrint, hstmts⟩
  obtain ⟨text, hwat⟩ : ∃ text, parsed.program.toWat parsed.table = .ok text := by
    generalize parsed.program.toWat parsed.table = result at hlowered
    cases result with
    | ok text => exact ⟨text, rfl⟩
    | error e => cases hlowered
  have hrun : ran.result = .ok 6 := by
    generalize ran.result = result at hcode
    cases result with
    | ok code => exact congrArg Except.ok (Option.some.inj hcode)
    | error e => cases hcode
  have htable : ∀ (s : Session) table, { s with table }.table = table := fun _ _ => rfl
  obtain ⟨module, htext, hexecute⟩ :=
    execute_of_run hclean hsupported hwat session (htable _ _) ⟨9, false, none⟩ hrun havoid
  exact ⟨hclean, hsupported, havoid, hrun, houtput, text, module, hwat, htext, hexecute⟩

end Session

end Ember
