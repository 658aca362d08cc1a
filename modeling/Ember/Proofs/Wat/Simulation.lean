import Ember.Proofs.Wat.Control
import Ember.Proofs.Wat.Evaluation

namespace Ember.Wat

open Exec

/-- The word stands for what is returned: the exit code, or a value of the type of the result. -/
def Answers (v : Value) (w : Int64) : Role → Prop
  | .start => v.exitCode = w
  | .function result => result ≠ .void → (v.narrow result).Holds result w

/-- What is done agrees with how a statement ends; `next` relates machine and store if it does not
return. -/
def Finishes (does : Option Int64 → Store → Prop) (body : List Stmt) (role : Role)
    (next : Machine → Store → Prop) : Flow → Machine → Prop
  | .next, m => ∃ s, does none s ∧ next m s
  | .returned v, m => ∃ w s, does (some w) s ∧ RootAgrees body "" m s ∧ Answers v w role

namespace Finishes

variable {does does' : Option Int64 → Store → Prop} {body : List Stmt} {role : Role}
  {next next' : Machine → Store → Prop} {flow : Flow} {m : Machine}

theorem mono (h : Finishes does body role next flow m)
    (himp : ∀ left s, does left s → does' left s) : Finishes does' body role next flow m := by
  cases flow with
  | next =>
    obtain ⟨s, hdoes, hnext⟩ := h
    exact ⟨s, himp _ _ hdoes, hnext⟩
  | returned v =>
    obtain ⟨w, s, hdoes, hreturned⟩ := h
    exact ⟨w, s, himp _ _ hdoes, hreturned⟩

theorem imp_next (h : Finishes does body role next flow m)
    (himp : flow = .next → ∀ s, next m s → next' m s) : Finishes does body role next' flow m := by
  cases flow with
  | next =>
    obtain ⟨s, hdoes, hnext⟩ := h
    exact ⟨s, hdoes, himp rfl s hnext⟩
  | returned v => exact h

theorem of_events {limit : Nat} {scopes : List Scope} {frames : List Nat}
    (h : Finishes does body role (Agrees body "" limit scopes frames) flow m)
    (events : List Event) :
    Finishes does body role (Agrees body "" limit scopes frames) flow { m with events } := by
  cases flow with
  | next =>
    obtain ⟨s, hdoes, hagrees⟩ := h
    exact ⟨s, hdoes, hagrees.of_machine rfl rfl⟩
  | returned v =>
    obtain ⟨w, s, hdoes, hagrees, hanswers⟩ := h
    exact ⟨w, s, hdoes, hagrees.of_machine rfl rfl, hanswers⟩

end Finishes

section

variable {declared : Declared} {body : List Stmt} {module : Module} {setting : Setting}
  {invoke : Invoke} {course : CallCourse} {calls : Calls} {rounds limit : Nat} {role : Role}
  {scopes scopes' : List Scope} {frames : List Nat}

/-- An expression that may be absent leaves a word if what stands for it is one. -/
theorem ends_evalOr (rounds : Nat) (hprogram : Unambiguous declared body module)
    (hlawful : LawfulInvoke declared body invoke)
    (hcalls : Reproduces declared body invoke course calls) (htidy : (localsOf scopes).Nodup)
    {m : Machine} {s : Store} {default : Value} {e : Option Expr} {code : List Instr}
    (hcode : LowersOr ⟨declared, role, scopes⟩ e code)
    (hprintable : Expr.PrintableOption declared.table.nameOf e)
    (hyields : e.all (·.yields declared.table body))
    (hdefault : e = none → default.word? = some 0) (hfaith : Faithful declared body m)
    (hsite : Mirrors (globalsIn body) m role scopes frames)
    (hagrees : Agrees body "" limit scopes frames m s) :
    (Expr.evalOr setting invoke frames default e).Ends
      (Expr.courseOr setting invoke course frames e) m fun v m' =>
        Keeps declared body none frames m m' ∧
        ∃ w s', Takes calls rounds code [] s [.i64 w] s' ∧ v.word? = some w ∧
          Agrees body "" limit scopes frames m' s' := by
  cases hcode with
  | none => exact Ends.pure ⟨.refl hfaith, 0, s, Takes.const 0, hdefault rfl, hagrees⟩
  | some he =>
    refine (ends_eval rounds hprogram hlawful hcalls htidy he (hprintable _ rfl).native
      (fun c hc => ⟨List.all_eq_true.1 hyields c hc, rfl⟩) hfaith hsite hagrees).mono ?_
    rintro v m' ⟨hkeeps, w, s', htakes, his, hagrees'⟩
    exact ⟨hkeeps, w, s', htakes, his.word_eq, hagrees'⟩

/-- That a statement is told of is no change that matters. -/
theorem ends_note {m : Machine} {s : Store} {e : Event} {k : Unit → Exec Flow}
    {d : Unit → Course} {post : Flow → Machine → Prop} (hfaith : Faithful declared body m)
    (hsite : Mirrors (globalsIn body) m role scopes frames)
    (hagrees : Agrees body "" limit scopes frames m s)
    (hk : ∀ m, Faithful declared body m → Mirrors (globalsIn body) m role scopes frames →
      Agrees body "" limit scopes frames m s → (k ()).Ends (d ()) m post) :
    (note setting e >>= k).Ends (Course.entering (Course.after (note setting e) d)) m post := by
  refine Ends.entering (Ends.note fun events => ?_)
  have hkeeps : Keeps declared body none frames m { m with events } := .of_frames hfaith rfl
  exact hk _ hkeeps.faithful (hsite.evolve hkeeps.evolves) (hagrees.of_machine rfl rfl)

/-- What runs in a new frame, which mirrors a new scope. -/
theorem ends_inFrame {α : Type} {m : Machine} {s : Store} {action : List Nat → Exec α}
    {d : List Nat → Course} {post : α → Machine → Prop} (hfaith : Faithful declared body m)
    (hsite : Mirrors (globalsIn body) m role scopes frames)
    (hagrees : Agrees body "" limit scopes frames m s)
    (haction : ∀ m frame, frame ≠ 0 → Faithful declared body m →
      Mirrors (globalsIn body) m role ([] :: scopes) (frame :: frames) →
      Agrees body "" limit ([] :: scopes) (frame :: frames) m s →
      (action (frame :: frames)).Ends (d (frame :: frames)) m post)
    (hevents : ∀ a m' events, post a m' → post a { m' with events }) :
    (inFrame setting frames action).Ends (Course.inFrame setting frames d) m post := by
  refine Ends.inFrame (fun events => ?_) hevents
  have htold : Keeps declared body none frames m { m with events } := .of_frames hfaith rfl
  have hnew : m.frames.size ≠ 0 := Nat.ne_of_gt (hsite.lt_size 0 hsite.zero_mem)
  have hagrees' : Agrees body "" limit scopes frames { m with events } s :=
    hagrees.of_machine rfl rfl
  exact haction _ _ hnew htold.faithful.push (hsite.evolve htold.evolves).enter (hagrees'.enter _)

/-- A function is declared, for which nothing is done. -/
theorem ends_function (hprogram : Unambiguous declared body module) {m : Machine} {s : Store}
    {p : Progress} {id : Int} {params : List Param} {result : Datatype} {stmts : List Stmt}
    {bodyLoc loc : Location} {c : Course} (htop : p.IsTop role)
    (hmem : .function id params result stmts bodyLoc loc ∈ body)
    (hsite : Mirrors (globalsIn body) m role p.scopes frames)
    (hagrees : Agrees body "" limit p.scopes frames m s) :
    (Stmt.exec setting invoke frames (.function id params result stmts bodyLoc loc)).Ends c m
      (Finishes (Does calls rounds [] s) body role (Agrees body "" limit p.scopes frames)) := by
  obtain ⟨rfl, rfl⟩ := hsite.of_isTop htop
  have hdeclared : ⟨id, params, result, Stmt.foldAll stmts⟩ ∈ declared.functions := by
    rw [hprogram.functions_eq, Stmt.foldAll_eq_map, List.filterMap_map]
    exact List.mem_filterMap.2 ⟨_, hmem, rfl⟩
  simp only [Stmt.exec]
  refine Ends.of_lands ((Lands.note _).bind ?_)
  rintro _ _ ⟨events, rfl⟩
  refine (Lands.nameOf id).bind ?_
  rintro name _ rfl
  refine (Lands.declare 0 [] id .empty _).bind ?_
  rintro _ _ rfl
  have hsite' : Mirrors (globalsIn body) { m with events } .start p.scopes [0] :=
    hsite.evolve (.of_frames rfl)
  have hagrees' : Agrees body "" limit p.scopes [0] { m with events } s :=
    hagrees.of_machine rfl rfl
  refine Lands.pure ⟨s, Takes.nil, hagrees'.of_root hsite' ⟨hagrees.output_eq, hagrees.placed, ?_⟩ rfl⟩
  intro id' type b hglobal hfind
  rw [Machine.frameAt_modify, if_pos ⟨rfl, hsite'.lt_size 0 hsite'.zero_mem⟩,
    Frame.find?_declare, if_neg] at hfind
  · exact hagrees.globals id' type b hglobal hfind
  · rintro rfl
    exact hprogram.distinct _ hdeclared (List.mem_map_of_mem hglobal)

/-- A variable is declared and set. -/
theorem ends_var (rounds : Nat) (place : Place) (hprogram : Unambiguous declared body module)
    (hlawful : LawfulInvoke declared body invoke)
    (hcalls : Reproduces declared body invoke course calls) (htidy : (localsOf scopes).Nodup)
    {m : Machine} {s : Store} {id : Int} {type : Datatype} {init : Option Expr} {loc : Location}
    {code : List Instr} {frame : Nat} {rest : List Nat} (htype : type.IsWord)
    (hinit : LowersOr ⟨declared, role, scopes⟩ init code)
    (hprintable : Expr.PrintableOption declared.table.nameOf init)
    (hyields : init.all (·.yields declared.table body)) (hfaith : Faithful declared body m)
    (hsite : Mirrors (globalsIn body) m role scopes (frame :: rest))
    (hagrees : Agrees body "" limit scopes (frame :: rest) m s)
    (hdeclare : ∀ m s b w, b.type = type → b.value.Holds b.type w →
      Mirrors (globalsIn body) m role scopes (frame :: rest) →
      Agrees body "" limit scopes (frame :: rest) m s → s.Has place ∧
        Agrees body "" limit scopes' (frame :: rest)
          { m with frames := m.frames.modify frame (·.declare id b) } (s.put place w)) :
    (Stmt.exec setting invoke (frame :: rest) (.var id type init loc)).Ends
      (Stmt.course setting invoke course (frame :: rest) (.var id type init loc)) m
      (Finishes (Does calls rounds (code ++ narrowing type ++ [place.set]) s) body role
        (Agrees body "" limit scopes' (frame :: rest))) := by
  simp only [Stmt.exec, Stmt.course]
  refine ends_note hfaith hsite hagrees fun m hfaith hsite hagrees => ?_
  refine Ends.bind_last ((ends_evalOr rounds hprogram hlawful hcalls htidy hinit hprintable hyields
    (fun _ => (Value.holds_zero htype).word_eq) hfaith hsite hagrees).mono ?_)
  rintro v m' ⟨hkeeps, w, s', htakes, hword, hagrees'⟩
  obtain ⟨hhas, hagrees''⟩ := hdeclare m' s' ⟨v.narrow type, type⟩ _ rfl
    (Value.holds_narrow htype hword) (hsite.evolve hkeeps.evolves) hagrees'
  refine Ends.of_lands ((Lands.declare frame rest id type v).bind ?_)
  rintro _ _ rfl
  exact Lands.pure ⟨_, (htakes.append (Takes.narrowing type w)).append (Takes.set hhas), hagrees''⟩

/-- What is returned is left. -/
theorem ends_returning (rounds : Nat) (hprogram : Unambiguous declared body module)
    (hlawful : LawfulInvoke declared body invoke)
    (hcalls : Reproduces declared body invoke course calls) (htidy : (localsOf scopes).Nodup)
    (hresult : ∀ result, role = .function result → result.keyword?.isSome) {m : Machine}
    {s : Store} {value : Option Expr} {loc : Location} {code : List Instr}
    (hvalue : LowersOr ⟨declared, role, scopes⟩ value code)
    (hprintable : Expr.PrintableOption declared.table.nameOf value)
    (hsupported : (Stmt.returning value loc).isSupported declared.table body role)
    (hfaith : Faithful declared body m) (hsite : Mirrors (globalsIn body) m role scopes frames)
    (hagrees : Agrees body "" limit scopes frames m s) :
    (Stmt.exec setting invoke frames (.returning value loc)).Ends
      (Stmt.course setting invoke course frames (.returning value loc)) m
      (Finishes (Does calls rounds (code ++ leaving role) s) body role
        (Agrees body "" limit scopes frames)) := by
  simp only [Stmt.exec, Stmt.course]
  refine ends_note hfaith hsite hagrees fun m hfaith hsite hagrees => ?_
  cases value with
  | none =>
    cases hvalue
    refine Ends.pure ⟨_, s, Does.leaving (Takes.const 0) role, hagrees.toRootAgrees, ?_⟩
    cases role with
    | start => rfl
    | function result =>
      have hvoid : result = .void := by simpa [Stmt.isSupported] using hsupported
      exact fun hne => absurd hvoid hne
  | some e =>
    refine Ends.bind_last ((ends_evalOr rounds hprogram hlawful hcalls htidy hvalue hprintable
      hsupported (by simp) hfaith hsite hagrees).mono ?_)
    rintro v m' ⟨_, w, s', htakes, hword, hagrees'⟩
    refine Ends.pure ⟨_, s', Does.leaving htakes role, hagrees'.toRootAgrees, ?_⟩
    cases role with
    | start => exact (congrArg (·.getD 0) hword :)
    | function result =>
      intro hne
      rw [Role.returned, if_neg hne]
      exact Value.holds_narrow ⟨hresult result rfl, hne⟩ hword

/-- A loop does what its test and its body do, for as many rounds as the program takes. -/
theorem ends_whileLoop (next : Machine → Store → Prop) {test : Exec Bool} {action : Exec Flow}
    {testCourse actionCourse : Course} {n : Nat} {testCode code : List Instr}
    (htest : ∀ m s, next m s → test.Ends testCourse m fun holds m' =>
      ∃ w s', Takes calls rounds testCode [] s [.i64 w] s' ∧ holds = (w != 0) ∧ next m' s')
    (haction : ∀ m s, next m s → action.Ends actionCourse m
      (Finishes (Does calls rounds code s) body role next))
    {turns count : Nat} (hle : turns ≤ count) {m : Machine} {s : Store} (hnext : next m s) :
    (Exec.whileLoop test action turns).Ends
      (Course.whileLoop testCourse test actionCourse action turns) m
      (Finishes (LoopDoes calls rounds n testCode code count s) body role next) := by
  induction turns generalizing count m s with
  | zero => exact Ends.of_lands (Lands.throw (Halt.not_isMisuse nofun))
  | succ turns ih =>
    obtain ⟨count, rfl⟩ : ∃ c, count = c + 1 := ⟨count - 1, by omega⟩
    refine Ends.bind ((htest m s hnext).mono ?_)
    rintro holds m₁ ⟨w, s₁, htakes, rfl, hnext₁⟩
    by_cases hw : w = 0
    · subst hw
      exact Ends.pure ⟨s₁, LoopDoes.exit htakes, hnext₁⟩
    · have hholds : (w != 0) = true := bne_iff_ne.2 hw
      rw [if_pos hholds, if_pos hholds]
      refine Ends.bind ((haction m₁ s₁ hnext₁).mono ?_)
      intro flow m₂ hfinishes
      cases flow with
      | next =>
        obtain ⟨s₂, hdoes, hnext₂⟩ := hfinishes
        exact (ih (Nat.le_of_succ_le_succ hle) hnext₂).mono fun _ _ hfinishes =>
          hfinishes.mono fun _ _ hloop => hloop.again htakes hw hdoes
      | returned v =>
        obtain ⟨w', s₂, hdoes, hreturned⟩ := hfinishes
        exact Ends.pure ⟨w', s₂, LoopDoes.leave htakes hw hdoes, hreturned⟩

/-- The machine runs in the given scopes, and the store agrees with it. -/
structure Stands (declared : Declared) (body : List Stmt) (limit : Nat) (role : Role)
    (scopes : List Scope) (frames : List Nat) (m : Machine) (s : Store) : Prop where
  faithful : Faithful declared body m
  mirrors : Mirrors (globalsIn body) m role scopes frames
  agrees : Agrees body "" limit scopes frames m s

/-- What agrees with the scopes after a statement that runs without misuse stands in them. -/
theorem ends_stands {action : Exec Flow} {c : Course} {m : Machine}
    {does : Option Int64 → Store → Prop}
    (hends : action.Ends c m (Finishes does body role (Agrees body "" limit scopes frames)))
    (hlands : action.Lands m (Follows declared body role scopes frames m)) :
    action.Ends c m (Finishes does body role (Stands declared body limit role scopes frames)) := by
  refine (hends.and_lands hlands).mono ?_
  rintro flow m' ⟨hfollows, hfinishes⟩
  exact hfinishes.imp_next fun hflow _ hagrees =>
    ⟨hfollows.1.faithful, hfollows.2 hflow, hagrees⟩

/-- A test holds if it leaves a word that is not zero. -/
theorem ends_test (rounds : Nat) (hprogram : Unambiguous declared body module)
    (hlawful : LawfulInvoke declared body invoke)
    (hcalls : Reproduces declared body invoke course calls) (htidy : (localsOf scopes).Nodup)
    {m : Machine} {s : Store} {cond : Expr} {code : List Instr}
    (hcond : Lowers ⟨declared, role, scopes⟩ cond code)
    (hprintable : cond.Printable declared.table.nameOf)
    (hyields : cond.yields declared.table body)
    (h : Stands declared body limit role scopes frames m s) :
    (cond.eval setting invoke frames).Ends (cond.course setting invoke course frames) m fun v m' =>
      ∃ w s', Takes calls rounds code [] s [.i64 w] s' ∧ v.isTruthy = (w != 0) ∧
        Stands declared body limit role scopes frames m' s' := by
  refine (ends_eval rounds hprogram hlawful hcalls htidy hcond hprintable.native
    (fun c hc => ⟨List.all_eq_true.1 hyields c hc, rfl⟩) h.faithful h.mirrors h.agrees).mono ?_
  rintro v m' ⟨hkeeps, w, s', htakes, his, hagrees⟩
  exact ⟨w, s', htakes, Value.isTruthy_eq his.word_eq,
    hkeeps.faithful, h.mirrors.evolve hkeeps.evolves, hagrees⟩

/-- A conditional does what its test does, and then what one of its branches does. -/
theorem ends_branches (rounds : Nat) (hprogram : Unambiguous declared body module)
    (hlawful : LawfulInvoke declared body invoke)
    (hcalls : Reproduces declared body invoke course calls) (htidy : (localsOf scopes).Nodup)
    {m : Machine} {s : Store} {cond : Expr} {test code : List Instr} {other : Option (List Instr)}
    {yes no : Exec Flow} {yesCourse noCourse : Course} {next : Machine → Store → Prop}
    (hcond : Lowers ⟨declared, role, scopes⟩ cond test)
    (hprintable : cond.Printable declared.table.nameOf)
    (hyields : cond.yields declared.table body)
    (h : Stands declared body limit role scopes frames m s)
    (hyes : ∀ m s, Stands declared body limit role scopes frames m s →
      yes.Ends yesCourse m (Finishes (Does calls rounds code s) body role next))
    (hno : ∀ m s', Stands declared body limit role scopes frames m s' →
      Takes calls rounds test [] s [.i64 0] s' → no.Ends noCourse m
        (Finishes (Does calls rounds (test ++ [.const 0, .num .ne, .cond code other]) s) body role
          next)) :
    (cond.eval setting invoke frames >>= fun v => if v.isTruthy then yes else no).Ends
      ((cond.course setting invoke course frames).andThen (cond.eval setting invoke frames)
        fun v => if v.isTruthy then yesCourse else noCourse) m
      (Finishes (Does calls rounds (test ++ [.const 0, .num .ne, .cond code other]) s) body role
        next) := by
  refine Ends.bind ((ends_test rounds hprogram hlawful hcalls htidy hcond hprintable hyields h).mono
    ?_)
  rintro v m' ⟨w, s', htakes, htruth, hstands⟩
  rw [htruth]
  by_cases hw : w = 0
  · subst hw
    exact hno m' s' hstands htakes
  · have hholds : (w != 0) = true := bne_iff_ne.2 hw
    rw [if_pos hholds, if_pos hholds]
    exact (hyes m' s' hstands).mono fun _ _ hfinishes =>
      hfinishes.mono fun _ _ hdoes => Does.cond_then other htakes hw hdoes

/-- A variable of the program itself is a global one. -/
theorem ends_global (rounds : Nat) (hprogram : Unambiguous declared body module)
    (hlawful : LawfulInvoke declared body invoke)
    (hcalls : Reproduces declared body invoke course calls) {m : Machine} {s : Store} {top : Scope}
    {id : Int} {type : Datatype} {init : Option Expr} {loc : Location} {code : List Instr}
    (htidy : (localsOf [top]).Nodup) (hinit : LowersOr ⟨declared, .start, [top]⟩ init code)
    (hprintable : (Stmt.var id type init loc).Printable declared.table.nameOf)
    (hsupported : (Stmt.var id type init loc).isSupported declared.table body .start)
    (hmem : .var id type init loc ∈ body) (hfaith : Faithful declared body m)
    (hsite : Mirrors (globalsIn body) m .start [top] [0])
    (hagrees : Agrees body "" limit [top] [0] m s) :
    (Stmt.exec setting invoke [0] (.var id type init loc)).Ends
      (Stmt.course setting invoke course [0] (.var id type init loc)) m
      (Finishes (Does calls rounds (code ++ narrowing type ++ [.globalSet id]) s) body .start
        (Agrees body "" limit [(id, ⟨.global id, type⟩) :: top] [0])) := by
  have hglobal : (id, type) ∈ globalsIn body := List.mem_filterMap.2 ⟨_, hmem, rfl⟩
  simp only [Stmt.isSupported, Bool.and_eq_true, bne_iff_ne] at hsupported
  refine ends_var rounds (.global id) hprogram hlawful hcalls htidy
    ⟨hprintable.2.1, hsupported.1⟩ hinit hprintable.2.2 hsupported.2 hfaith hsite hagrees ?_
  rintro m s b w rfl hholds hsite hagrees
  exact ⟨hagrees.placed id (List.mem_map_of_mem hglobal),
    hagrees.declareGlobal hprogram hsite hglobal hholds⟩

/-- Any other variable is a local one, with a number that is not in use. -/
theorem ends_local (rounds : Nat) (hprogram : Unambiguous declared body module)
    (hlawful : LawfulInvoke declared body invoke)
    (hcalls : Reproduces declared body invoke course calls) {m : Machine} {s : Store} {scope : Scope}
    {rest : List Scope} {frame n : Nat} {id : Int} {type : Datatype} {init : Option Expr}
    {loc : Location} {code : List Instr} (htidy : (localsOf (scope :: rest)).Nodup)
    (hfree : .temp n ∉ localsOf (scope :: rest)) (hlimit : n < limit) (hframe : frame ≠ 0)
    (hinit : LowersOr ⟨declared, role, scope :: rest⟩ init code)
    (hprintable : (Stmt.var id type init loc).Printable declared.table.nameOf)
    (hsupported : (Stmt.var id type init loc).isSupported declared.table body role)
    (hfaith : Faithful declared body m)
    (hsite : Mirrors (globalsIn body) m role (scope :: rest) (frame :: frames))
    (hagrees : Agrees body "" limit (scope :: rest) (frame :: frames) m s) :
    (Stmt.exec setting invoke (frame :: frames) (.var id type init loc)).Ends
      (Stmt.course setting invoke course (frame :: frames) (.var id type init loc)) m
      (Finishes (Does calls rounds (code ++ narrowing type ++ [.localSet (.temp n)]) s) body role
        (Agrees body "" limit (((id, ⟨.local (.temp n), type⟩) :: scope) :: rest)
          (frame :: frames))) := by
  simp only [Stmt.isSupported, Bool.and_eq_true, bne_iff_ne] at hsupported
  refine ends_var rounds (.local (.temp n)) hprogram hlawful hcalls htidy
    ⟨hprintable.2.1, hsupported.1⟩ hinit hprintable.2.2 hsupported.2 hfaith hsite hagrees ?_
  rintro m s b w rfl hholds hsite hagrees
  exact ⟨hagrees.temps _ hlimit,
    (hagrees.setLocal hfree w).declareLocal hsite hframe id (if_pos rfl) hholds⟩

mutual

/-- The instructions of a statement do what it does. -/
theorem ends_exec (hbudget : setting.budget ≤ rounds) (hprogram : Unambiguous declared body module)
    (hlawful : LawfulInvoke declared body invoke)
    (hcalls : Reproduces declared body invoke course calls)
    (hresult : ∀ result, role = .function result → result.keyword?.isSome) {m : Machine}
    {s : Store} {frames : List Nat} {p p' : Progress} :
    {stmt : Stmt} → {code : List Instr} → LowersStmt declared role p stmt code p' →
    stmt.Printable declared.table.nameOf → stmt.isSupported declared.table body role →
    (p.IsTop role → stmt.isDeclaration = true → stmt ∈ body) → p.Tidy → p'.locals ≤ limit →
    Faithful declared body m → Mirrors (globalsIn body) m role p.scopes frames →
    Agrees body "" limit p.scopes frames m s →
    (stmt.exec setting invoke frames).Ends (stmt.course setting invoke course frames) m
      (Finishes (Does calls rounds code s) body role (Agrees body "" limit p'.scopes frames))
  | .function _ _ _ _ _ _, _, .function htop, _, _, hmem, _, _, _, hsite, hagrees =>
    ends_function hprogram htop (hmem htop rfl) hsite hagrees
  | .var id type init loc, _, @LowersStmt.global _ _ p top _ _ _ _ _ hrole hscopes hinit, hprintable,
    hsupported, hmem, htidy, _, hfaith, hsite, hagrees => by
    have htop : p.IsTop role := ⟨hrole, by rw [hscopes]; rfl⟩
    obtain ⟨rfl, rfl⟩ := hsite.of_isTop htop
    rw [Progress.view, hscopes] at hinit
    rw [hscopes] at hsite hagrees
    exact ends_global rounds hprogram hlawful hcalls (hscopes ▸ htidy.nodup) hinit hprintable
      hsupported (hmem htop rfl) hfaith hsite hagrees
  | .var id type init loc, _, .local htop hscopes hinit, hprintable, hsupported, _, htidy, hlimit,
    hfaith, hsite, hagrees => by
    obtain ⟨frame, rest, rfl, hframe⟩ := hsite.exists_frame htop hscopes
    have hfree : .temp p.locals ∉ localsOf p.scopes := fun h =>
      Nat.lt_irrefl _ (htidy.bounded _ h)
    rw [Progress.view, hscopes] at hinit
    rw [hscopes] at hsite hagrees hfree
    exact ends_local rounds hprogram hlawful hcalls (hscopes ▸ htidy.nodup) hfree hlimit hframe hinit
      hprintable hsupported hfaith hsite hagrees
  | .block stmts loc, _, .block hbody, hprintable, hsupported, _, htidy, hlimit, hfaith, hsite,
    hagrees => by
    simp only [Stmt.exec, Stmt.course]
    refine ends_note hfaith hsite hagrees fun m hfaith hsite hagrees => ?_
    have hnot := not_isTop_inner [] hsite.scopes_ne
    rw [hbody.grows.tail_eq]
    refine ends_inFrame hfaith hsite hagrees (fun m frame _ hfaith hsite hagrees => ?_)
      fun _ _ events h => h.of_events events
    refine (ends_execAll hbudget hprogram hlawful hcalls hresult hbody
      (Stmt.PrintableAll.of_mem hprintable) (Stmt.areSupported_iff.1 hsupported)
      (fun h => absurd h hnot) ⟨htidy.nodup, htidy.bounded⟩ hlimit hfaith hsite hagrees).mono ?_
    intro flow m' hfinishes
    refine hfinishes.imp_next fun _ s' hagrees' => ?_
    obtain ⟨scope, rest, hscopes⟩ := List.exists_cons_of_ne_nil (hbody.grows.scopes_ne nofun)
    have htail := hbody.grows.tail_eq
    rw [hscopes] at hagrees' htail
    exact htail ▸ hagrees'.leave
  | .conditional cond stmt none loc, _, .ifThen hcond hbody, hprintable, hsupported, _, htidy,
    hlimit, hfaith, hsite, hagrees => by
    obtain ⟨hprintableCond, hnot, hprintable⟩ := hprintable
    simp only [Stmt.isSupported, Bool.and_eq_true] at hsupported
    simp only [Stmt.exec, Stmt.course]
    refine ends_note hfaith hsite hagrees fun m hfaith hsite hagrees => ?_
    refine ends_branches rounds hprogram hlawful hcalls htidy.nodup hcond hprintableCond hsupported.1
      ⟨hfaith, hsite, hagrees⟩ (fun m s h => ?_) fun m s' h htakes => ?_
    · exact ends_exec hbudget hprogram hlawful hcalls hresult hbody hprintable hsupported.2
        (fun _ h => absurd h (by simp [hnot])) htidy hlimit h.faithful h.mirrors h.agrees
    · rw [hbody.scopes_eq hprintable hnot]
      exact Ends.pure ⟨s', Does.cond_skip htakes, h.agrees⟩
  | .conditional cond stmt (some other) loc, _, .ifElse hcond hbody hother, hprintable, hsupported,
    _, htidy, hlimit, hfaith, hsite, hagrees => by
    obtain ⟨hprintableCond, ⟨hnot, hprintable⟩, _, hnot', hprintable'⟩ := hprintable
    simp only [Stmt.isSupported, Bool.and_eq_true] at hsupported
    simp only [Stmt.exec, Stmt.course]
    refine ends_note hfaith hsite hagrees fun m hfaith hsite hagrees => ?_
    refine ends_branches rounds hprogram hlawful hcalls htidy.nodup hcond hprintableCond
      hsupported.1.1 ⟨hfaith, hsite, hagrees⟩ (fun m s h => ?_) fun m s' h htakes => ?_
    · rw [hother.scopes_eq hprintable' hnot']
      exact ends_exec hbudget hprogram hlawful hcalls hresult hbody hprintable hsupported.1.2
        (fun _ h => absurd h (by simp [hnot])) htidy (hother.grows.locals_le.trans hlimit)
        h.faithful h.mirrors h.agrees
    · have hscopes := hbody.scopes_eq hprintable hnot
      refine (ends_exec hbudget hprogram hlawful hcalls hresult hother hprintable' hsupported.2
        (fun _ h => absurd h (by simp [hnot'])) (hbody.tidy htidy) hlimit h.faithful
        (hscopes ▸ h.mirrors) (hscopes ▸ h.agrees)).mono ?_
      exact fun _ _ hfinishes => hfinishes.mono fun _ _ hdoes => Does.cond_else htakes hdoes
  | .loop cond stmt loc, _, .loop hcond hbody, hprintable, hsupported, _, htidy, hlimit, hfaith,
    hsite, hagrees => by
    obtain ⟨hprintableCond, hnot, hprintable⟩ := hprintable
    simp only [Stmt.isSupported, Bool.and_eq_true] at hsupported
    simp only [Stmt.exec, Stmt.course]
    refine ends_note hfaith hsite hagrees fun m hfaith hsite hagrees => ?_
    -- Frames mirror the same scopes in every round, since the body is no declaration.
    have hscopes := hbody.scopes_eq hprintable hnot
    rw [hscopes]
    refine (ends_whileLoop (Stands declared body limit role p.scopes frames) (fun m s h => ?_)
      (fun m s h => ?_) hbudget ⟨hfaith, hsite, hagrees⟩).mono fun _ _ hfinishes =>
        (hfinishes.mono fun _ _ hloop => hloop.does).imp_next fun _ _ h => h.agrees
    · refine Ends.map ((ends_test rounds hprogram hlawful hcalls htidy.nodup hcond hprintableCond
        hsupported.1 h).mono ?_)
      exact fun v m' h => h
    · have hdeclares : Progress.IsTop role { p with loops := p.loops + 1 } →
          stmt.isDeclaration = true → stmt ∈ body := fun _ h => absurd h (by simp [hnot])
      have hends := ends_exec hbudget hprogram hlawful hcalls hresult hbody hprintable hsupported.2
        hdeclares ⟨htidy.nodup, htidy.bounded⟩ hlimit h.faithful h.mirrors h.agrees
      have hlands : (stmt.exec setting invoke frames).Lands m _ :=
        lands_exec hprogram.toAdmissible hlawful hbody hprintable hdeclares h.faithful h.mirrors
      rw [hscopes] at hends hlands
      exact ends_stands hends hlands
  | .returning value loc, _, .returning hvalue, hprintable, hsupported, _, htidy, _, hfaith, hsite,
    hagrees =>
    ends_returning rounds hprogram hlawful hcalls htidy.nodup hresult hvalue hprintable hsupported
      hfaith hsite hagrees
  | .expr e loc, _, .expr he, hprintable, hsupported, _, htidy, _, hfaith, hsite, hagrees => by
    simp only [Stmt.exec, Stmt.course]
    refine ends_note hfaith hsite hagrees fun m hfaith hsite hagrees => ?_
    refine Ends.bind_last ((ends_standsAlone rounds hprogram hlawful hcalls htidy.nodup hfaith hsite
      hagrees e he (Expr.Formed.native e hprintable) hsupported).mono ?_)
    rintro v m' ⟨w, s', htakes, hagrees'⟩
    exact Ends.pure ⟨s', Takes.append htakes (Takes.drop _), hagrees'⟩

theorem ends_execAll (hbudget : setting.budget ≤ rounds)
    (hprogram : Unambiguous declared body module) (hlawful : LawfulInvoke declared body invoke)
    (hcalls : Reproduces declared body invoke course calls)
    (hresult : ∀ result, role = .function result → result.keyword?.isSome) {m : Machine}
    {s : Store} {frames : List Nat} {p p' : Progress} :
    {ss : List Stmt} → {code : List Instr} → LowersStmts declared role p ss code p' →
    (∀ stmt ∈ ss, stmt.Printable declared.table.nameOf) →
    (∀ stmt ∈ ss, stmt.isSupported declared.table body role) →
    (p.IsTop role → ∀ stmt ∈ ss, stmt ∈ body) → p.Tidy → p'.locals ≤ limit →
    Faithful declared body m → Mirrors (globalsIn body) m role p.scopes frames →
    Agrees body "" limit p.scopes frames m s →
    (Stmt.execAll setting invoke frames ss).Ends (Stmt.courseAll setting invoke course frames ss) m
      (Finishes (Does calls rounds code s) body role (Agrees body "" limit p'.scopes frames))
  | [], _, .nil, _, _, _, _, _, _, _, hagrees => Ends.pure ⟨s, Takes.nil, hagrees⟩
  | stmt :: rest, _, .cons hhead hrest, hprintable, hsupported, hmem, htidy, hlimit, hfaith, hsite,
    hagrees => by
    simp only [Stmt.execAll, Stmt.courseAll]
    have hdeclares : p.IsTop role → stmt.isDeclaration = true → stmt ∈ body :=
      fun htop _ => hmem htop stmt List.mem_cons_self
    have hends := ends_exec hbudget hprogram hlawful hcalls hresult hhead
      (hprintable stmt List.mem_cons_self) (hsupported stmt List.mem_cons_self) hdeclares htidy
      (hrest.grows.locals_le.trans hlimit) hfaith hsite hagrees
    have hlands : (stmt.exec setting invoke frames).Lands m _ :=
      lands_exec hprogram.toAdmissible hlawful hhead (hprintable stmt List.mem_cons_self) hdeclares
        hfaith hsite
    refine Ends.bind ((ends_stands hends hlands).mono ?_)
    intro flow m' hfinishes
    cases flow with
    | next =>
      obtain ⟨s', hdoes, hstands⟩ := hfinishes
      have htop := hhead.grows.isTop hsite.scopes_ne
      refine (ends_execAll hbudget hprogram hlawful hcalls hresult hrest
        (fun stmt hs => hprintable stmt (List.mem_cons_of_mem _ hs))
        (fun stmt hs => hsupported stmt (List.mem_cons_of_mem _ hs))
        (fun h stmt hs => hmem (htop h) stmt (List.mem_cons_of_mem _ hs)) (hhead.tidy htidy) hlimit
        hstands.faithful hstands.mirrors hstands.agrees).mono ?_
      exact fun _ _ hfinishes => hfinishes.mono fun _ _ hmore => Does.after hdoes hmore
    | returned v =>
      obtain ⟨w, s', hdoes, hreturned⟩ := hfinishes
      exact Ends.pure ⟨w, s', hdoes.append_of_left _, hreturned⟩

end

end

end Ember.Wat
