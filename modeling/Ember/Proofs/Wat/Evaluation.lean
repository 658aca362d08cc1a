import Ember.Proofs.Wat.Agreement

namespace Ember.Wat

open Exec

/-- The word of each value, in their order. -/
abbrev WordsOf (values : List Value) (words : List Int64) : Prop :=
  List.Forall₂ (fun v w => v.word? = some w) values words

/-- Words on the stack, the last of them on top. -/
def onStack (words : List Int64) : List Operand := (words.map Operand.i64).reverse

@[simp] theorem onStack_cons (w : Int64) (words : List Int64) :
    onStack (w :: words) = onStack words ++ [.i64 w] := by simp [onStack]

/-- Calls in a module do what calls of the program's functions do, and what is written is
written by the host. -/
structure Reproduces (declared : Declared) (body : List Stmt) (invoke : Invoke)
    (course : CallCourse) (calls : Calls) : Prop where
  host : ∀ f, (∀ id, f ≠ .user id) → calls f = hostCall f
  user : ∀ g f args words loc m s, f ∈ declared.functions → Implements body g f →
    args.length = f.params.length → WordsOf args words → Faithful declared body m →
    0 < m.frames.size → RootAgrees body "" m s →
    (invoke g args loc).Ends (course g args) m fun v m' => ∃ w s',
      (∀ stack, calls (.user f.id) ⟨onStack words ++ stack, s⟩ = .ok ⟨.i64 w :: stack, s'⟩) ∧
        s'.locals = s.locals ∧ RootAgrees body "" m' s' ∧
        (f.result ≠ .void → v.Holds f.result w)

theorem Takes.call {calls : Calls} {rounds : Nat} {f : FuncRef} {ins outs : List Operand}
    {s s' : Store} (h : ∀ stack, calls f ⟨ins ++ stack, s⟩ = .ok ⟨outs ++ stack, s'⟩) :
    Takes calls rounds [.call f] ins s outs s' :=
  of_run fun stack => by
    simp only [Instr.run, h]
    rfl

section

variable {declared : Declared} {body : List Stmt} {module : Module} {setting : Setting}
  {invoke : Invoke} {course : CallCourse} {calls : Calls} {rounds limit : Nat} {role : Role}
  {scopes : List Scope} {frames : List Nat}

/-- What is called is a function of the program or `print`, and it is called with the arguments
when they are evaluated. -/
theorem ends_callee (hprogram : Unambiguous declared body module) {m : Machine} {callee : Expr}
    {args : List Expr} {loc : Location} {id : Int} {post : Value → Machine → Prop}
    (hcallee : callee.named? = some id)
    (hvar : View.lookup ⟨declared, role, scopes⟩ id = none)
    (hid : id ∉ (globalsIn body).map (·.1)) (hfaith : Faithful declared body m)
    (hsite : Mirrors (globalsIn body) m role scopes frames)
    (hcall : ∀ f : Callable, ((f = .print ∧ id = printId declared.table) ∨
        ∃ decl g, decl ∈ declared.functions ∧ decl.id = id ∧ f = .closure g ∧
          Implements body g decl) →
      Ends (do
          f.checkArity args.length loc
          f.call setting invoke (← Expr.evalAll setting invoke frames args) loc)
        (Course.after (f.checkArity args.length loc) fun _ =>
          (Expr.courseAll setting invoke course frames args).andThen
            (Expr.evalAll setting invoke frames args) fun values => f.course course values)
        m post) :
    (Expr.eval setting invoke frames (.call callee args loc)).Ends
      (Expr.course setting invoke course frames (.call callee args loc)) m post := by
  obtain ⟨at', hcalleeEval⟩ := Expr.eval_of_named? setting invoke frames callee hcallee
  rw [Expr.eval, Expr.course]
  refine Ends.entering (Ends.bind (Ends.of_lands ?_))
  rw [hcalleeEval]
  refine (Lands.lookup frames id at').bind ?_
  rintro x _ ⟨rfl, hfind⟩
  refine Lands.pure ?_
  rcases hprogram.callee hfaith hsite hvar hid hfind with ⟨hprint, hid⟩ | ⟨f, g, hf, hfid, hg, himp⟩
  · rw [hprint]
    exact hcall .print (.inl ⟨rfl, hid⟩)
  · rw [hg]
    exact hcall (.closure g) (.inr ⟨f, g, hf, hfid, rfl, himp⟩)

/-- A call of a function leaves a word, which is that of its result if it has one. -/
theorem ends_call (hprogram : Unambiguous declared body module)
    (hlawful : LawfulInvoke declared body invoke)
    (hcalls : Reproduces declared body invoke course calls) {m : Machine} {s : Store}
    {callee : Expr} {args : List Expr} {loc : Location} {id : Int} {f : FunctionDecl}
    {code : List Instr} (hcallee : callee.named? = some id)
    (hvar : View.lookup ⟨declared, role, scopes⟩ id = none)
    (hfunction : View.function? ⟨declared, role, scopes⟩ id = some f)
    (harity : f.params.length = args.length) (hfaith : Faithful declared body m)
    (hsite : Mirrors (globalsIn body) m role scopes frames)
    (hargs : (Expr.evalAll setting invoke frames args).Ends
      (Expr.courseAll setting invoke course frames args) m fun values m' =>
        (values.length = args.length ∧ Keeps declared body none frames m m') ∧
        ∃ words s', Takes calls rounds code [] s (onStack words) s' ∧ WordsOf values words ∧
          Agrees body "" limit scopes frames m' s') :
    (Expr.eval setting invoke frames (.call callee args loc)).Ends
      (Expr.course setting invoke course frames (.call callee args loc)) m fun v m' =>
        ∃ w s', Takes calls rounds (code ++ [.call (.user f.id)]) [] s [.i64 w] s' ∧
          (f.result ≠ .void → v.Holds f.result w) ∧ Agrees body "" limit scopes frames m' s' := by
  obtain ⟨hf, hfid⟩ := View.function?_eq_some hfunction
  refine ends_callee hprogram hcallee hvar (hfid ▸ hprogram.distinct _ hf) hfaith hsite ?_
  rintro callable (⟨_, hprint⟩ | ⟨f', g, hf', hfid', rfl, himp⟩)
  · exact absurd (hfid.trans hprint) (hprogram.function_ne f hf)
  · obtain rfl := hprogram.function_unique hf hf' (hfid.trans hfid'.symm)
    have hcheck : ((Callable.closure g).checkArity args.length loc).Lands m fun _ m' => m' = m := by
      simp only [Callable.checkArity, Callable.arity?, himp.params_eq, harity, if_true]
      exact Lands.pure rfl
    refine Ends.after hcheck ?_
    rintro _ _ rfl
    refine Ends.bind (hargs.mono ?_)
    rintro values m' ⟨⟨hlength, hkeeps⟩, words, s', htakes, hwords, hagrees⟩
    have hvalues : values.length = f.params.length := hlength.trans harity.symm
    have hsite' := hsite.evolve hkeeps.evolves
    have hroot : 0 < m'.frames.size := hsite'.lt_size 0 hsite'.zero_mem
    have hrun := (hcalls.user g f values words loc m' s' hf himp hvalues hwords hkeeps.faithful
      hroot hagrees.toRootAgrees).and_lands
        (hlawful g f values loc m' hf himp hvalues hkeeps.faithful hroot)
    refine hrun.mono ?_
    rintro v m'' ⟨hkeeps', w, s'', hcall, hlocals, hrootAgrees, hresult⟩
    exact ⟨w, s'', htakes.append (Takes.call hcall), hresult,
      hagrees.of_call hsite' hkeeps' hrootAgrees hlocals⟩

theorem ends_negate {v : Value} {loc : Location} {c : Course} {m : Machine} :
    (Value.unary .neg v loc).Ends c m fun v' m' => m' = m ∧ v.negate? = some v' := by
  intro v' m' hrun _
  unfold Value.unary at hrun
  cases hnegate : v.negate? with
  | some value =>
    simp only [hnegate] at hrun
    cases hrun
    exact ⟨rfl, rfl⟩
  | none =>
    simp only [hnegate] at hrun
    cases hrun

mutual

/-- An expression whose calls give values is evaluated to what its instructions leave. While a line
is printed it calls nothing. -/
theorem ends_eval (rounds : Nat) (hprogram : Unambiguous declared body module)
    (hlawful : LawfulInvoke declared body invoke)
    (hcalls : Reproduces declared body invoke course calls) (htidy : (localsOf scopes).Nodup)
    {pending : String} {m : Machine} {s : Store} :
    {e : Expr} → {code : List Instr} → Lowers ⟨declared, role, scopes⟩ e code → e.Native →
    (∀ c ∈ e.callees, c.answers declared.table body ∧ pending = "") → Faithful declared body m →
    Mirrors (globalsIn body) m role scopes frames → Agrees body pending limit scopes frames m s →
    (e.eval setting invoke frames).Ends (e.course setting invoke course frames) m fun v m' =>
      Keeps declared body none frames m m' ∧
      ∃ w s', Takes calls rounds code [] s [.i64 w] s' ∧
        v.Is w (View.isUnsigned ⟨declared, role, scopes⟩ e.fold)
          (View.isBool ⟨declared, role, scopes⟩ e.fold) ∧
        Agrees body pending limit scopes frames m' s'
  | e, _, .constant hfold, hnative, hquiet, hfaith, hsite, hagrees => by
    obtain ⟨hvalue, heval⟩ := Expr.eval_of_fold_literal setting invoke frames e hnative hfold
    rw [heval, hfold]
    exact Ends.pure ⟨.refl hfaith, _, s, Takes.const _, Value.is_ofLiteral hvalue, hagrees⟩
  | .var id loc, _, .var hslot, hnative, hquiet, hfaith, hsite, hagrees => by
    refine Ends.of_lands ((Lands.lookup frames id loc).bind ?_)
    rintro x _ ⟨rfl, hfind⟩
    obtain ⟨_, w, hholds, htakes⟩ := hagrees.read hprogram hsite hslot hfind
    refine Lands.pure ⟨.refl hfaith, w, s, htakes _ _, ?_, hagrees⟩
    simpa only [Expr.fold, View.isUnsigned, View.isBool, View.isVariableOf, hslot] using hholds.toIs
  | .group inner loc, _, .group hfold hinner, hnative, hquiet, hfaith, hsite, hagrees => by
    rw [hfold]
    exact (ends_eval (e := inner) rounds hprogram hlawful hcalls htidy hinner hnative hquiet hfaith hsite
      hagrees).entering
  | .assign target value loc, _, @Lowers.assign _ _ _ _ id slot _ htarget hslot hvalue, hnative,
    hquiet, hfaith, hsite, hagrees => by
    refine Ends.and_lands (lands_eval hprogram.toAdmissible hlawful (.assign htarget hslot hvalue)
      hnative hfaith hsite) ?_
    rw [Expr.callees, List.forall_mem_append] at hquiet
    obtain ⟨at', hunparen⟩ := Expr.named?_eq_some_iff.1 htarget
    simp only [Expr.eval, Expr.course, hunparen]
    refine Ends.entering (Ends.after (Lands.lookup frames id at') ?_)
    rintro x _ ⟨rfl, hfind⟩
    obtain ⟨htype, _, hold, _⟩ := hagrees.read hprogram hsite hslot hfind
    refine Ends.bind_last ((ends_eval rounds hprogram hlawful hcalls htidy hvalue hnative.2 hquiet.2 hfaith
      hsite hagrees).mono ?_)
    rintro v m' ⟨hkeeps, w, s', htakes, his, hagrees'⟩
    have hholds := Value.holds_narrow hold.isWord his.word_eq
    obtain ⟨hhas, hagrees''⟩ := hagrees'.write hprogram htidy hsite hslot hfind
      (hsite.evolve hkeeps.evolves) hholds
    rw [htype]
    refine Ends.of_lands ((Lands.assign x.1 id _).bind ?_)
    rintro _ _ rfl
    refine Lands.pure ⟨_, _, (htakes.append (Takes.narrowing slot.type w)).append (Takes.tee hhas),
      ?_, hagrees''⟩
    simpa only [Expr.fold, View.isUnsigned, View.isBool, hunparen, View.isVariableOf, hslot]
      using hholds.toIs
  | .unary .neg operand loc, _, .neg hfold hoperand, hnative, hquiet, hfaith, hsite, hagrees => by
    rw [hfold]
    refine Ends.entering (Ends.bind_last ((ends_eval rounds hprogram hlawful hcalls htidy hoperand hnative
      hquiet hfaith hsite hagrees).mono ?_))
    rintro v m' ⟨hkeeps, w, s', htakes, his, hagrees'⟩
    refine ends_negate.mono ?_
    rintro v' _ ⟨rfl, hnegate⟩
    refine ⟨hkeeps, 0 - w, s', ?_, ?_, hagrees'⟩
    · exact ((Takes.const 0).append (htakes.push _)).append (Takes.combine rfl)
    · exact his.unsigned_eq ▸ Value.is_negate? his.word_eq hnegate
  | .unary .not operand loc, _, .not hfold hoperand, hnative, hquiet, hfaith, hsite, hagrees => by
    rw [hfold]
    refine Ends.entering (Ends.bind_last ((ends_eval rounds hprogram hlawful hcalls htidy hoperand hnative
      hquiet hfaith hsite hagrees).mono ?_))
    rintro v m' ⟨hkeeps, w, s', htakes, his, hagrees'⟩
    exact Ends.pure ⟨hkeeps, _, s', htakes.append (Takes.not w), Value.is_not his.word_eq, hagrees'⟩
  | .binary op left right loc, _, .binary hfold hleft hright, hnative, hquiet, hfaith, hsite,
    hagrees => by
    rw [Expr.callees, List.forall_mem_append] at hquiet
    rw [hfold]
    refine Ends.entering (Ends.bind ((ends_eval rounds hprogram hlawful hcalls htidy hleft hnative.1
      hquiet.1 hfaith hsite hagrees).mono ?_))
    rintro a m₁ ⟨hkeeps₁, w₁, s₁, htakes₁, his₁, hagrees₁⟩
    refine Ends.bind ((ends_eval rounds hprogram hlawful hcalls htidy hright hnative.2 hquiet.2
      hkeeps₁.faithful (hsite.evolve hkeeps₁.evolves) hagrees₁).mono ?_)
    rintro b m₂ ⟨hkeeps₂, w₂, s₂, htakes₂, his₂, hagrees₂⟩ v m' hrun havoid
    obtain ⟨rfl, w, htakes, his⟩ := takes_binary his₁.word_eq his₂.word_eq
      (havoid _ (List.mem_singleton_self _)) hrun
    rw [his₁.unsigned_eq, his₂.unsigned_eq] at htakes his
    exact ⟨hkeeps₁.trans hkeeps₂, w, s₂,
      (htakes₁.append (htakes₂.push _)).append (htakes _ _ _), his, hagrees₂⟩
  | .call callee args loc, _, .call hcallee hvar hfunction harity hargs, hnative, hquiet, hfaith,
    hsite, hagrees => by
    refine Ends.and_lands (lands_eval hprogram.toAdmissible hlawful
      (.call hcallee hvar hfunction harity hargs) hnative hfaith hsite) ?_
    rw [Expr.callees, List.forall_mem_cons, List.forall_mem_append] at hquiet
    obtain ⟨⟨hanswers, rfl⟩, _, hquiet⟩ := hquiet
    obtain ⟨hf, hfid⟩ := View.function?_eq_some hfunction
    have hresult := hprogram.result_ne_void hf (hfid ▸ hcallee) hanswers
    refine (ends_call hprogram hlawful hcalls hcallee hvar hfunction harity hfaith hsite
      (ends_evalAll rounds hprogram hlawful hcalls htidy hargs hnative.2 hquiet hfaith hsite
        hagrees)).mono ?_
    rintro v m' ⟨w, s', htakes, hholds, hagrees'⟩
    refine ⟨w, s', htakes, ?_, hagrees'⟩
    obtain ⟨at', hunparen⟩ := Expr.named?_eq_some_iff.1 ((Expr.named?_fold callee).trans hcallee)
    simpa [Expr.fold, View.isUnsigned, View.isBool, View.callsFor, View.calledFunction?,
      Expr.unparen, hunparen, hvar, hfunction] using (hholds hresult).toIs
  | .call callee args loc, _, .print hcallee hvar hfunction hname hargs, hnative, hquiet, hfaith,
    hsite, hagrees => by
    rw [Expr.callees, List.forall_mem_cons] at hquiet
    have hprint : callee.isPrint declared.table := by
      rw [Expr.isPrint, hcallee, Option.any_some, View.nameOf_eq_ok hname]
      rfl
    simp [Expr.answers, hprint] at hquiet

theorem ends_evalAll (rounds : Nat) (hprogram : Unambiguous declared body module)
    (hlawful : LawfulInvoke declared body invoke)
    (hcalls : Reproduces declared body invoke course calls) (htidy : (localsOf scopes).Nodup)
    {pending : String} {m : Machine} {s : Store} :
    {es : List Expr} → {code : List Instr} → LowersAll ⟨declared, role, scopes⟩ es code →
    Expr.NativeAll es →
    (∀ c ∈ Expr.calleesAll es, c.answers declared.table body ∧ pending = "") →
    Faithful declared body m → Mirrors (globalsIn body) m role scopes frames →
    Agrees body pending limit scopes frames m s →
    (Expr.evalAll setting invoke frames es).Ends (Expr.courseAll setting invoke course frames es) m
      fun values m' => (values.length = es.length ∧ Keeps declared body none frames m m') ∧
        ∃ words s', Takes calls rounds code [] s (onStack words) s' ∧ WordsOf values words ∧
          Agrees body pending limit scopes frames m' s'
  | [], _, .nil, _, _, hfaith, hsite, hagrees =>
    Ends.pure ⟨⟨rfl, .refl hfaith⟩, [], s, Takes.nil, .nil, hagrees⟩
  | e :: rest, _, .cons hhead hrest, hnative, hquiet, hfaith, hsite, hagrees => by
    rw [Expr.calleesAll, List.forall_mem_append] at hquiet
    refine Ends.bind ((ends_eval rounds hprogram hlawful hcalls htidy hhead hnative.1 hquiet.1 hfaith
      hsite hagrees).mono ?_)
    rintro v m₁ ⟨hkeeps₁, w, s₁, htakes₁, his, hagrees₁⟩
    refine Ends.bind_last ((ends_evalAll rounds hprogram hlawful hcalls htidy hrest hnative.2 hquiet.2
      hkeeps₁.faithful (hsite.evolve hkeeps₁.evolves) hagrees₁).mono ?_)
    rintro values m₂ ⟨⟨hlength, hkeeps₂⟩, words, s₂, htakes₂, hwords, hagrees₂⟩
    refine Ends.pure ⟨⟨congrArg (· + 1) hlength, hkeeps₁.trans hkeeps₂⟩, w :: words, s₂, ?_,
      .cons his.word_eq hwords, hagrees₂⟩
    rw [onStack_cons]
    exact htakes₁.append (htakes₂.push _)

end

/-- More of a line is written. -/
theorem Agrees.write_output {pending : String} {m : Machine} {s : Store}
    (h : Agrees body pending limit scopes frames m s) (text : String) :
    Agrees body (pending ++ text) limit scopes frames m { s with output := s.output ++ text } :=
  ⟨⟨by rw [h.output_eq, String.append_assoc], h.placed, h.globals⟩, h.temps, h.locals⟩

theorem View.printer_ne_user (v : View) (e : Expr) (id : Int) : v.printer e ≠ .user id := by
  unfold View.printer
  split
  · exact nofun
  · split <;> exact nofun

/-- The host function that is chosen by the form of an expression writes its value as the program
prints it. -/
theorem hostCall_printer {v : View} {e : Expr} {value : Value} {w : Int64}
    (his : value.Is w (v.isUnsigned e) (v.isBool e)) (stack : List Operand) (s : Store) :
    hostCall (v.printer e) ⟨.i64 w :: stack, s⟩ =
      .ok ⟨stack, { s with output := s.output ++ value.render }⟩ := by
  obtain ⟨hword, hunsigned, hbool⟩ := his
  rw [View.printer, ← hunsigned, ← hbool]
  cases value with
  | void | func => cases hword
  | int n =>
    cases hword
    rfl
  | uint n =>
    cases hword
    simp [hostCall, HostCall.render, Value.render, Value.isBool, Value.isUnsigned]
  | bool b =>
    cases hword
    cases b <;> rfl

/-- The host writes a word as the value is printed. -/
theorem takes_printer (hcalls : Reproduces declared body invoke course calls) {v : View} {e : Expr}
    {value : Value} {w : Int64} {s : Store} (his : value.Is w (v.isUnsigned e) (v.isBool e)) :
    Takes calls rounds [.call (v.printer e)] [.i64 w] s []
      { s with output := s.output ++ value.render } :=
  Takes.call fun stack => by
    rw [hcalls.host _ (v.printer_ne_user e)]
    exact hostCall_printer his stack s

/-- What is printed is written word by word, with a space between each two. -/
theorem ends_evalPrinted (rounds : Nat) (hprogram : Unambiguous declared body module)
    (hlawful : LawfulInvoke declared body invoke)
    (hcalls : Reproduces declared body invoke course calls) (htidy : (localsOf scopes).Nodup)
    {pending : String} {m : Machine} {s : Store} :
    {es : List Expr} → {code : List Instr} → LowersPrinted ⟨declared, role, scopes⟩ es code →
    Expr.NativeAll es → Expr.calleesAll es = [] → Faithful declared body m →
    Mirrors (globalsIn body) m role scopes frames → Agrees body pending limit scopes frames m s →
    (Expr.evalAll setting invoke frames es).Ends (Expr.courseAll setting invoke course frames es) m
      fun values m' => ∃ s', Takes calls rounds code [] s [] s' ∧
        Agrees body (pending ++ " ".intercalate (values.map Value.render)) limit scopes frames m' s'
  | _, _, .nil, _, _, hfaith, hsite, hagrees => by
    refine Ends.pure ⟨s, Takes.nil, ?_⟩
    simpa using hagrees
  | _, _, @LowersPrinted.last _ e _ hhead, hnative, hquiet, hfaith, hsite, hagrees => by
    have hcallees : e.callees = [] := (List.append_eq_nil_iff.1 hquiet).1
    refine Ends.bind ((ends_eval rounds hprogram hlawful hcalls htidy hhead hnative.1 (by simp [hcallees])
      hfaith hsite hagrees).mono ?_)
    rintro v m₁ ⟨_, w, s₁, htakes, his, hagrees₁⟩
    refine Ends.pure ⟨_, htakes.append (takes_printer hcalls his), ?_⟩
    simpa using hagrees₁.write_output v.render
  | _, _, .cons hhead hmore hrest, hnative, hquiet, hfaith, hsite, hagrees => by
    obtain ⟨hcallees, hquiet⟩ := List.append_eq_nil_iff.1 hquiet
    refine Ends.bind ((ends_eval rounds hprogram hlawful hcalls htidy hhead hnative.1 (by simp [hcallees])
      hfaith hsite hagrees).mono ?_)
    rintro v m₁ ⟨hkeeps, w, s₁, htakes, his, hagrees₁⟩
    have hagrees₂ := (hagrees₁.write_output v.render).write_output " "
    have hsite₁ := hsite.evolve hkeeps.evolves
    refine Ends.bind_last ((Ends.and_lands
      (lands_evalPrinted hprogram.toAdmissible hlawful hrest hnative.2 hkeeps.faithful hsite₁)
      (ends_evalPrinted rounds hprogram hlawful hcalls htidy hrest hnative.2 hquiet hkeeps.faithful
        hsite₁ hagrees₂)).mono ?_)
    rintro values m₂ ⟨⟨hlength, _⟩, s₂, htakes₂, hagrees₃⟩
    have hspace : Takes calls rounds [.call .printSpace] []
        { s₁ with output := s₁.output ++ v.render } []
        { s₁ with output := s₁.output ++ v.render ++ " " } :=
      Takes.call fun stack => by rw [hcalls.host .printSpace (by simp)]; rfl
    refine Ends.pure ⟨s₂, (htakes.append (takes_printer hcalls his)).append
      (hspace.append htakes₂), ?_⟩
    have hvalues : values.map Value.render ≠ [] := fun hnil => hmore <| by
      rw [List.map_eq_nil_iff] at hnil
      exact List.length_eq_zero_iff.1 (hlength.symm.trans (congrArg List.length hnil))
    rw [List.map_cons, String.intercalate_cons_of_ne_nil hvalues]
    simpa only [String.append_assoc] using hagrees₃

theorem ends_writeLine {text : String} {c : Course} {m : Machine} :
    (writeLine setting text).Ends c m fun _ m' =>
      m' = { m with output := m.output ++ text ++ "\n" } := by
  intro _ m' hrun _
  unfold writeLine at hrun
  cases hrefusal : setting.refusal with
  | some reason =>
    simp only [hrefusal] at hrun
    cases hrun
  | none =>
    simp only [hrefusal] at hrun
    cases hrun
    rfl

/-- A line is printed. -/
theorem ends_print (rounds : Nat) (hprogram : Unambiguous declared body module)
    (hlawful : LawfulInvoke declared body invoke)
    (hcalls : Reproduces declared body invoke course calls) (htidy : (localsOf scopes).Nodup)
    {m : Machine} {s : Store} {callee : Expr} {args : List Expr} {loc : Location} {id : Int}
    {code : List Instr} (hcallee : callee.named? = some id)
    (hvar : View.lookup ⟨declared, role, scopes⟩ id = none)
    (hfunction : View.function? ⟨declared, role, scopes⟩ id = none)
    (hname : View.nameOf declared id = .ok "print")
    (hargs : LowersPrinted ⟨declared, role, scopes⟩ args code) (hnative : Expr.NativeAll args)
    (hquiet : Expr.calleesAll args = []) (hfaith : Faithful declared body m)
    (hsite : Mirrors (globalsIn body) m role scopes frames)
    (hagrees : Agrees body "" limit scopes frames m s) :
    (Expr.eval setting invoke frames (.call callee args loc)).Ends
      (Expr.course setting invoke course frames (.call callee args loc)) m fun _ m' =>
        ∃ s', Takes calls rounds (code ++ [.call .printNewline, .const 0]) [] s [.i64 0] s' ∧
          Agrees body "" limit scopes frames m' s' := by
  refine ends_callee hprogram hcallee hvar (fun hid => hprogram.noPrint _ hid hname) hfaith hsite ?_
  rintro callable (⟨rfl, _⟩ | ⟨f, g, hf, hfid, _⟩)
  · have hcheck : (Callable.print.checkArity args.length loc).Lands m fun _ m' => m' = m :=
      Lands.pure rfl
    refine Ends.after hcheck ?_
    rintro _ _ rfl
    refine Ends.bind ((ends_evalPrinted rounds hprogram hlawful hcalls htidy hargs hnative hquiet
      hfaith hsite hagrees).mono ?_)
    rintro values m' ⟨s', htakes, hagrees'⟩
    refine Ends.bind_last (ends_writeLine.mono ?_)
    rintro _ _ rfl
    have hnewline : Takes calls rounds [.call .printNewline, .const 0] [] s' [.i64 0]
        { s' with output := s'.output ++ "\n" } :=
      (Takes.call fun stack => by rw [hcalls.host .printNewline nofun]; rfl).append (Takes.const 0)
    refine Ends.pure ⟨_, htakes.append hnewline, ?_⟩
    have hwritten := hagrees'.write_output "\n"
    refine ⟨⟨?_, hwritten.placed, hwritten.globals⟩, hwritten.temps, hwritten.locals⟩
    rw [hwritten.output_eq]
    simp [String.append_assoc]
  · have hnone := List.find?_eq_none.1 hfunction f hf
    exact absurd hfid (by simpa using hnone)

/-- An expression that is a statement may call what gives no value. -/
theorem ends_standsAlone (rounds : Nat) (hprogram : Unambiguous declared body module)
    (hlawful : LawfulInvoke declared body invoke)
    (hcalls : Reproduces declared body invoke course calls) (htidy : (localsOf scopes).Nodup)
    {m : Machine} {s : Store} (hfaith : Faithful declared body m)
    (hsite : Mirrors (globalsIn body) m role scopes frames)
    (hagrees : Agrees body "" limit scopes frames m s) :
    (e : Expr) → {code : List Instr} → Lowers ⟨declared, role, scopes⟩ e code → e.Native →
    e.standsAlone declared.table body →
    (e.eval setting invoke frames).Ends (e.course setting invoke course frames) m fun _ m' =>
      ∃ w s', Takes calls rounds code [] s [.i64 w] s' ∧ Agrees body "" limit scopes frames m' s'
  | .group inner loc, _, hlowers, hnative, halone => by
    cases hlowers with
    | constant hfold =>
      rw [(Expr.eval_of_fold_literal setting invoke frames _ hnative hfold).2]
      exact Ends.pure ⟨_, s, Takes.const _, hagrees⟩
    | group _ hinner =>
      exact (ends_standsAlone rounds hprogram hlawful hcalls htidy hfaith hsite hagrees inner hinner
        hnative halone).entering
  | .call callee args loc, _, hlowers, hnative, halone => by
    simp only [Expr.standsAlone, Expr.unparen, List.all_append, Bool.and_eq_true, Bool.or_eq_true,
      Bool.not_eq_true', List.isEmpty_iff] at halone
    obtain ⟨⟨_, hargsAnswer⟩, hprinted⟩ := halone
    cases hlowers with
    | constant hfold => simp [Expr.fold] at hfold
    | call hcallee hvar hfunction harity hargs =>
      have hquiet : ∀ c ∈ Expr.calleesAll args, c.answers declared.table body ∧ "" = "" :=
        fun c hc => ⟨List.all_eq_true.1 hargsAnswer c hc, rfl⟩
      refine (ends_call hprogram hlawful hcalls hcallee hvar hfunction harity hfaith hsite
        (ends_evalAll rounds hprogram hlawful hcalls htidy hargs hnative.2 hquiet hfaith hsite
          hagrees)).mono ?_
      rintro v m' ⟨w, s', htakes, _, hagrees'⟩
      exact ⟨w, s', htakes, hagrees'⟩
    | print hcallee hvar hfunction hname hargs =>
      have hprint : callee.isPrint declared.table := by
        rw [Expr.isPrint, hcallee, Option.any_some, View.nameOf_eq_ok hname]
        rfl
      have hquiet : Expr.calleesAll args = [] := hprinted.resolve_left (by simp [hprint])
      refine (ends_print rounds hprogram hlawful hcalls htidy hcallee hvar hfunction hname hargs
        hnative.2 hquiet hfaith hsite hagrees).mono ?_
      rintro _ m' ⟨s', htakes, hagrees'⟩
      exact ⟨0, s', htakes, hagrees'⟩
  | .literal _ _, _, hlowers, hnative, halone | .var _ _, _, hlowers, hnative, halone
  | .assign _ _ _, _, hlowers, hnative, halone | .unary _ _ _, _, hlowers, hnative, halone
  | .binary _ _ _ _, _, hlowers, hnative, halone => by
    refine (ends_eval rounds hprogram hlawful hcalls htidy hlowers hnative
      (fun c hc => ⟨List.all_eq_true.1 halone c hc, rfl⟩) hfaith hsite hagrees).mono ?_
    rintro v m' ⟨_, w, s', htakes, _, hagrees'⟩
    exact ⟨w, s', htakes, hagrees'⟩

end

end Ember.Wat
