import Ember.Proofs.Wat.Faithful

namespace Ember

open Exec

namespace Wat

section

variable {declared : Declared} {body : List Stmt} {module : Module} {setting : Setting}
  {invoke : Invoke} {role : Role} {scopes : List Scope} {frames : List Nat}

/-- Arguments are evaluated, and a function of the program is called with them. -/
theorem lands_call (hprogram : Admissible declared body module)
    (hlawful : LawfulInvoke declared body invoke) {m : Machine} {callee : Expr}
    {args : List Expr} {loc : Location} {id : Int} (hcallee : callee.named? = some id)
    (hvar : View.lookup ⟨declared, role, scopes⟩ id = none)
    (hid : id ∉ (globalsIn body).map (·.1))
    (harity : ∀ f ∈ declared.functions, f.id = id → f.params.length = args.length)
    (hargs : ∀ m, Faithful declared body m → Mirrors (globalsIn body) m role scopes frames →
      (Expr.evalAll setting invoke frames args).Lands m fun values m' =>
        values.length = args.length ∧ Keeps declared body none frames m m')
    (hfaith : Faithful declared body m) (hsite : Mirrors (globalsIn body) m role scopes frames) :
    (Expr.eval setting invoke frames (.call callee args loc)).Lands m fun _ m' =>
      Keeps declared body none frames m m' := by
  obtain ⟨at', hcalleeEval⟩ := Expr.eval_of_named? setting invoke frames callee hcallee
  rw [Expr.eval, hcalleeEval, bind_assoc]
  refine (Lands.lookup frames id at').bind ?_
  rintro x _ ⟨rfl, hfind⟩
  rw [pure_bind]
  rcases hprogram.callee hfaith hsite hvar hid hfind with ⟨hprint, _⟩ | ⟨f, g, hf, hfid, hg, himp⟩
  · simp only [hprint]
    refine (Lands.pure rfl : Lands (Callable.checkArity .print args.length loc) _
      fun _ m' => m' = _).bind ?_
    rintro _ _ rfl
    refine (hargs _ hfaith hsite).bind fun values m' ⟨hlength, hkeeps⟩ => ?_
    refine (Lands.writeLine _).bind ?_
    rintro _ _ ⟨output, rfl⟩
    exact Lands.pure (hkeeps.trans (.of_frames hkeeps.faithful rfl))
  · have hparams : g.params.length = args.length := by
      rw [himp.params_eq]
      exact harity f hf hfid
    have hcheck : (Callable.closure g).checkArity args.length loc = pure () := by
      simp only [Callable.checkArity, Callable.arity?, hparams, if_true]
    simp only [hg, hcheck, pure_bind]
    refine (hargs _ hfaith hsite).bind fun values m' ⟨hlength, hkeeps⟩ => ?_
    have hroot : 0 < m'.frames.size :=
      Nat.lt_of_lt_of_le (hsite.lt_size 0 hsite.zero_mem) hkeeps.evolves.size_le
    have hvalues : values.length = f.params.length := by rw [hlength, harity f hf hfid]
    refine (hlawful g f values loc m' hf himp hvalues hkeeps.faithful hroot).mono fun _ m'' hcall => ?_
    exact hkeeps.trans (hcall.of_root hsite.zero_mem)

mutual

/-- An expression that is lowered is evaluated without misuse. -/
theorem lands_eval (hprogram : Admissible declared body module)
    (hlawful : LawfulInvoke declared body invoke) {m : Machine} :
    {e : Expr} → {code : List Instr} → Lowers ⟨declared, role, scopes⟩ e code → e.Native →
    Faithful declared body m → Mirrors (globalsIn body) m role scopes frames →
    (e.eval setting invoke frames).Lands m fun _ m' => Keeps declared body none frames m m'
  | e, _, .constant hfold, hnative, hfaith, hsite => by
    rw [(Expr.eval_of_fold_literal setting invoke frames e hnative hfold).2]
    exact Lands.pure (.refl hfaith)
  | .var id loc, _, .var hslot, _, hfaith, hsite => by
    refine (Lands.lookup frames id loc).bind ?_
    rintro x _ ⟨rfl, _⟩
    exact Lands.pure (.refl hfaith)
  | .group inner _, _, .group _ hinner, hnative, hfaith, hsite =>
    lands_eval (e := inner) hprogram hlawful hinner hnative hfaith hsite
  | .assign target value loc, _, @Lowers.assign _ _ _ _ id _ _ htarget hslot hvalue, hnative, hfaith,
    hsite => by
    obtain ⟨at', hunparen⟩ := Expr.named?_eq_some_iff.1 htarget
    simp only [Expr.eval, hunparen]
    refine (Lands.lookup frames id at').bind ?_
    rintro x _ ⟨rfl, hfind⟩
    refine (lands_eval hprogram hlawful hvalue hnative.2 hfaith hsite).bind fun v m' hkeeps => ?_
    refine (Lands.assign x.1 id _).bind ?_
    rintro _ _ rfl
    refine Lands.pure (hkeeps.trans ?_)
    refine .modify hkeeps.faithful (find?_of_findIn hfind).1 (.assign m' x.1 id _) ?_
    intro hroot id' hid' f
    have hne : id ≠ id' := by
      rintro rfl
      cases hsite.refers hprogram.globalsOf.mem id with
      | inner _ _ _ _ hframe hfind' => cases hfind'.symm.trans hfind; exact hframe hroot
      | root hglobal => exact hid' (List.mem_map_of_mem (hglobal _ hslot).2)
    rw [Frame.find?_assign]
    simp only [hne, if_false, Option.map_id']
  | .unary .neg operand loc, _, .neg _ hoperand, hnative, hfaith, hsite => by
    refine (lands_eval hprogram hlawful hoperand hnative hfaith hsite).bind fun v m' hkeeps => ?_
    exact (Lands.unary .neg v loc).mono fun _ _ h => h ▸ hkeeps
  | .unary .not operand loc, _, .not _ hoperand, hnative, hfaith, hsite => by
    refine (lands_eval hprogram hlawful hoperand hnative hfaith hsite).bind fun v m' hkeeps => ?_
    exact (Lands.unary .not v loc).mono fun _ _ h => h ▸ hkeeps
  | .binary op left right loc, _, .binary _ hleft hright, hnative, hfaith, hsite => by
    refine (lands_eval hprogram hlawful hleft hnative.1 hfaith hsite).bind fun v m' hkeeps => ?_
    refine (lands_eval hprogram hlawful hright hnative.2 hkeeps.faithful
      (hsite.evolve hkeeps.evolves)).bind fun w m'' hkeeps' => ?_
    exact (Lands.binary op v w loc).mono fun _ _ h => h ▸ hkeeps.trans hkeeps'
  | .call callee args loc, _, .call hcallee hvar hfunction harity hargs, hnative, hfaith, hsite => by
    obtain ⟨hf, hfid⟩ := View.function?_eq_some hfunction
    refine lands_call hprogram hlawful hcallee hvar (hfid ▸ hprogram.distinct _ hf) ?_
      (fun m hfaith hsite => lands_evalAll hprogram hlawful hargs hnative.2 hfaith hsite)
      hfaith hsite
    intro f' hf' hfid'
    rw [hprogram.function_unique hf' hf (hfid'.trans hfid.symm)]
    exact harity
  | .call callee args loc, _, .print hcallee hvar hfunction hname hargs, hnative, hfaith, hsite => by
    refine lands_call hprogram hlawful hcallee hvar (fun hid => hprogram.noPrint _ hid hname) ?_
      (fun m hfaith hsite => lands_evalPrinted hprogram hlawful hargs hnative.2 hfaith hsite)
      hfaith hsite
    intro f' hf' hfid'
    have hnone := List.find?_eq_none.1 hfunction f' hf'
    exact absurd hfid' (by simpa using hnone)

theorem lands_evalAll (hprogram : Admissible declared body module)
    (hlawful : LawfulInvoke declared body invoke) {m : Machine} :
    {es : List Expr} → {code : List Instr} → LowersAll ⟨declared, role, scopes⟩ es code →
    Expr.NativeAll es → Faithful declared body m →
    Mirrors (globalsIn body) m role scopes frames →
    (Expr.evalAll setting invoke frames es).Lands m fun values m' =>
      values.length = es.length ∧ Keeps declared body none frames m m'
  | [], _, .nil, _, hfaith, _ => Lands.pure ⟨rfl, .refl hfaith⟩
  | e :: rest, _, .cons hhead hrest, hnative, hfaith, hsite => by
    refine (lands_eval hprogram hlawful hhead hnative.1 hfaith hsite).bind fun v m' hkeeps => ?_
    refine (lands_evalAll hprogram hlawful hrest hnative.2 hkeeps.faithful
      (hsite.evolve hkeeps.evolves)).bind fun vs m'' ⟨hlength, hkeeps'⟩ => ?_
    exact Lands.pure ⟨congrArg (· + 1) hlength, hkeeps.trans hkeeps'⟩

theorem lands_evalPrinted (hprogram : Admissible declared body module)
    (hlawful : LawfulInvoke declared body invoke) {m : Machine} :
    {es : List Expr} → {code : List Instr} → LowersPrinted ⟨declared, role, scopes⟩ es code →
    Expr.NativeAll es → Faithful declared body m →
    Mirrors (globalsIn body) m role scopes frames →
    (Expr.evalAll setting invoke frames es).Lands m fun values m' =>
      values.length = es.length ∧ Keeps declared body none frames m m'
  | [], _, .nil, _, hfaith, _ => Lands.pure ⟨rfl, .refl hfaith⟩
  | [e], _, .last hhead, hnative, hfaith, hsite => by
    refine (lands_eval hprogram hlawful hhead hnative.1 hfaith hsite).bind fun v m' hkeeps => ?_
    exact Lands.pure ⟨rfl, hkeeps⟩
  | e :: rest, _, .cons hhead _ hrest, hnative, hfaith, hsite => by
    refine (lands_eval hprogram hlawful hhead hnative.1 hfaith hsite).bind fun v m' hkeeps => ?_
    refine (lands_evalPrinted hprogram hlawful hrest hnative.2 hkeeps.faithful
      (hsite.evolve hkeeps.evolves)).bind fun vs m'' ⟨hlength, hkeeps'⟩ => ?_
    exact Lands.pure ⟨congrArg (· + 1) hlength, hkeeps.trans hkeeps'⟩

end

theorem lands_evalOr (hprogram : Admissible declared body module)
    (hlawful : LawfulInvoke declared body invoke) {m : Machine} {default : Value}
    {e : Option Expr} {code : List Instr} (hcode : LowersOr ⟨declared, role, scopes⟩ e code)
    (hprintable : Expr.PrintableOption declared.table.nameOf e) (hfaith : Faithful declared body m)
    (hsite : Mirrors (globalsIn body) m role scopes frames) :
    (Expr.evalOr setting invoke frames default e).Lands m fun _ m' =>
      Keeps declared body none frames m m' := by
  cases hcode with
  | none => exact Lands.pure (.refl hfaith)
  | some he => exact lands_eval hprogram hlawful he (hprintable _ rfl).native hfaith hsite

end

theorem not_isTop_inner {role : Role} {p : Progress} (scope : Scope)
    (h : role = .start → p.scopes ≠ []) :
    ¬Progress.IsTop role { p with scopes := scope :: p.scopes } := by
  rintro ⟨hrole, hlength⟩
  exact h hrole (List.length_eq_zero_iff.1 (Nat.succ.inj hlength))

/-- After a statement of the program itself there are more of them, and nothing else. -/
theorem Progress.Grows.isTop {role : Role} {p p' : Progress} (h : p.Grows p')
    (hne : role = .start → p.scopes ≠ []) (htop : p'.IsTop role) : p.IsTop role := by
  obtain ⟨hrole, hlength⟩ := htop
  obtain ⟨scope, rest, hscopes⟩ := List.exists_cons_of_ne_nil (hne hrole)
  have htail := congrArg List.length h.tail_eq
  simp only [List.length_tail, hlength, hscopes, List.length_cons] at htail ⊢
  exact ⟨hrole, by rw [hscopes, List.length_cons]; omega⟩

/-- Only declarations change what is in scope. -/
theorem LowersStmt.scopes_eq {declared : Declared} {role : Role} {name : Int → String}
    {p p' : Progress} {code : List Instr} :
    {s : Stmt} → LowersStmt declared role p s code p' → s.Printable name →
    s.isDeclaration = false → p'.scopes = p.scopes
  | _, .function _, _, h | _, .global _ _ _, _, h | _, .local _ _ _, _, h => by cases h
  | _, .block hbody, _, _ => hbody.grows.tail_eq
  | _, .ifThen _ hbody, hprintable, _ => hbody.scopes_eq hprintable.2.2 hprintable.2.1
  | _, .ifElse _ hbody hother, hprintable, _ => by
    obtain ⟨_, ⟨hnot, hprintable⟩, _, hnot', hprintable'⟩ := hprintable
    exact (hother.scopes_eq hprintable' hnot').trans (hbody.scopes_eq hprintable hnot)
  | _, .loop _ hbody, hprintable, _ => hbody.scopes_eq hprintable.2.2 hprintable.2.1
  | _, .returning _, _, _ | _, .expr _, _, _ => rfl

/-- What holds after a statement: what it has to keep, and that frames mirror scopes again if it
does not return. -/
def Follows (declared : Declared) (body : List Stmt) (role : Role) (scopes : List Scope)
    (frames : List Nat) (m : Machine) (flow : Flow) (m' : Machine) : Prop :=
  Keeps declared body frames.head? frames m m' ∧
    (flow = .next → Mirrors (globalsIn body) m' role scopes frames)

namespace Follows

variable {declared : Declared} {body : List Stmt} {role : Role} {scopes scopes' : List Scope}
  {frames : List Nat} {m m' m'' : Machine} {flow : Flow}

theorem trans (h : Keeps declared body frames.head? frames m m')
    (h' : Follows declared body role scopes frames m' flow m'') :
    Follows declared body role scopes frames m flow m'' :=
  ⟨h.trans h'.1, h'.2⟩

/-- What declares nothing in the frames that exist is followed by the same scopes. -/
theorem of_keeps (h : Keeps declared body none frames m m')
    (hsite : Mirrors (globalsIn body) m role scopes frames) :
    Follows declared body role scopes frames m flow m' :=
  ⟨h.mono _, fun _ => hsite.evolve h.evolves⟩

end Follows

section

variable {declared : Declared} {body : List Stmt} {module : Module} {setting : Setting}
  {invoke : Invoke} {role : Role} {frames : List Nat}

/-- That a statement is told of is no change that matters. -/
theorem lands_note {m : Machine} {scopes scopes' : List Scope} {e : Event} {k : Unit → Exec Flow}
    (hfaith : Faithful declared body m) (hsite : Mirrors (globalsIn body) m role scopes frames)
    (hk : ∀ m, Faithful declared body m → Mirrors (globalsIn body) m role scopes frames →
      (k ()).Lands m (Follows declared body role scopes' frames m)) :
    (note setting e >>= k).Lands m (Follows declared body role scopes' frames m) := by
  refine (Lands.note e).bind ?_
  rintro _ _ ⟨events, rfl⟩
  have hkeeps : Keeps declared body none frames m { m with events } := .of_frames hfaith rfl
  have hrun := hk _ hkeeps.faithful (hsite.evolve hkeeps.evolves)
  exact hrun.mono fun _ _ h => .trans (hkeeps.mono _) h

/-- What runs in a new frame, which mirrors a new scope, keeps what is outside. -/
theorem lands_inFrame {α : Type} {m : Machine} {scopes : List Scope} {action : List Nat → Exec α}
    (hfaith : Faithful declared body m) (hsite : Mirrors (globalsIn body) m role scopes frames)
    (haction : ∀ m frame, frame ≠ 0 → Faithful declared body m →
      Mirrors (globalsIn body) m role ([] :: scopes) (frame :: frames) →
      (action (frame :: frames)).Lands m fun _ m' =>
        Keeps declared body (some frame) (frame :: frames) m m') :
    (inFrame setting frames action).Lands m fun _ m' => Keeps declared body none frames m m' := by
  refine Lands.inFrame (fun events => ?_) fun _ _ events h => h.trans (.of_frames h.faithful rfl)
  have htold : Keeps declared body none frames m { m with events } := .of_frames hfaith rfl
  have hnew : m.frames.size ≠ 0 := Nat.ne_of_gt (hsite.lt_size 0 hsite.zero_mem)
  exact (haction _ _ hnew htold.faithful.push (hsite.evolve htold.evolves).enter).mono
    fun _ _ h => htold.trans h.of_frame

/-- Only the frame of the program itself is in scope where its own statements stand. -/
theorem Mirrors.of_isTop {m : Machine} {vars : List (Int × Datatype)} {p : Progress}
    (h : Mirrors vars m role p.scopes frames) (htop : p.IsTop role) : role = .start ∧ frames = [0] := by
  obtain ⟨rfl, hlength⟩ := htop
  refine ⟨rfl, ?_⟩
  generalize p.scopes = scopes at h hlength
  cases h with
  | start => rfl
  | inner _ _ _ _ hrest =>
    rw [List.length_eq_zero_iff.1 (Nat.succ.inj hlength)] at hrest
    cases hrest

/-- Elsewhere the innermost frame is not that of the program itself. -/
theorem Mirrors.exists_frame {m : Machine} {vars : List (Int × Datatype)} {p : Progress}
    {scope : Scope} {rest : List Scope} (h : Mirrors vars m role p.scopes frames)
    (htop : ¬p.IsTop role) (hscopes : p.scopes = scope :: rest) :
    ∃ frame rest, frames = frame :: rest ∧ frame ≠ 0 := by
  rw [hscopes] at h
  cases h with
  | start => exact absurd ⟨rfl, by rw [hscopes]; rfl⟩ htop
  | inner hnew _ _ _ hrest => exact ⟨_, _, rfl, Nat.ne_of_gt (hnew 0 hrest.zero_mem)⟩

/-- A function is declared as what it is. -/
theorem lands_function (hprogram : Admissible declared body module) {m : Machine}
    {p : Progress} {id : Int} {params : List Param} {result : Datatype} {stmts : List Stmt}
    {bodyLoc loc : Location} (htop : p.IsTop role)
    (hmem : .function id params result stmts bodyLoc loc ∈ body)
    (hfaith : Faithful declared body m) (hsite : Mirrors (globalsIn body) m role p.scopes frames) :
    (Stmt.exec setting invoke frames (.function id params result stmts bodyLoc loc)).Lands m
      (Follows declared body role p.scopes frames m) := by
  obtain ⟨rfl, rfl⟩ := hsite.of_isTop htop
  simp only [Stmt.exec]
  refine lands_note hfaith hsite fun m hfaith hsite => ?_
  refine (Lands.nameOf id).bind ?_
  rintro name _ rfl
  refine (Lands.declare 0 [] id .empty _).bind ?_
  rintro _ _ rfl
  refine Lands.pure ⟨⟨fun id' b hb hid' => ?_, .declare _ 0 id _, fun k _ hout => ?_⟩, fun _ => ?_⟩
  · rw [Machine.frameAt_modify, if_pos ⟨rfl, hsite.lt_size 0 hsite.zero_mem⟩,
      Frame.find?_declare] at hb
    split at hb
    · rename_i hid
      cases hb
      have hdeclared : ⟨id, params, result, Stmt.foldAll stmts⟩ ∈ declared.functions := by
        rw [hprogram.functions_eq, Stmt.foldAll_eq_map, List.filterMap_map]
        exact List.mem_filterMap.2 ⟨_, hmem, rfl⟩
      exact .inr ⟨_, _, hdeclared, hid, rfl, rfl, rfl, rfl, rfl, _, _, hmem⟩
    · exact hfaith id' b hb hid'
  · rw [Machine.frameAt_modify, if_neg]
    exact fun heq => hout (heq.1 ▸ List.mem_singleton_self 0)
  · refine hsite.of_evolves (.declare _ 0 id _) fun k hk hne => ?_
    exact absurd (List.mem_singleton.1 hk) hne

/-- A variable is declared in the frame that mirrors its scope. -/
theorem lands_var (hprogram : Admissible declared body module)
    (hlawful : LawfulInvoke declared body invoke) {m : Machine} {scopes scopes' : List Scope}
    {id : Int} {type : Datatype} {init : Option Expr} {loc : Location} {code : List Instr}
    {frame : Nat} {rest : List Nat}
    (hinit : LowersOr ⟨declared, role, scopes⟩ init code)
    (hprintable : Expr.PrintableOption declared.table.nameOf init)
    (hfaith : Faithful declared body m)
    (hsite : Mirrors (globalsIn body) m role scopes (frame :: rest))
    (hroot : frame = 0 → id ∈ (globalsIn body).map (·.1))
    (hdeclare : ∀ m b, b.type = type → Mirrors (globalsIn body) m role scopes (frame :: rest) →
      Mirrors (globalsIn body) { m with frames := m.frames.modify frame (·.declare id b) } role
        scopes' (frame :: rest)) :
    (Stmt.exec setting invoke (frame :: rest) (.var id type init loc)).Lands m
      (Follows declared body role scopes' (frame :: rest) m) := by
  simp only [Stmt.exec]
  refine lands_note hfaith hsite fun m hfaith hsite => ?_
  refine (lands_evalOr hprogram hlawful hinit hprintable hfaith hsite).bind fun v m' hkeeps => ?_
  refine (Lands.declare frame rest id type v).bind ?_
  rintro _ _ rfl
  have hchange := Keeps.modify hkeeps.faithful (List.mem_cons_self (l := rest))
    (.declare m' frame id ⟨v.narrow type, type⟩) fun hzero id' hid' f => by
      rw [Frame.find?_declare, if_neg]
      rintro rfl
      exact hid' (hroot hzero)
  exact Lands.pure ⟨(hkeeps.mono _).trans hchange,
    fun _ => hdeclare m' _ rfl (hsite.evolve hkeeps.evolves)⟩

mutual

/-- A statement that is lowered runs without misuse. -/
theorem lands_exec (hprogram : Admissible declared body module)
    (hlawful : LawfulInvoke declared body invoke) {m : Machine} {frames : List Nat} {p p' : Progress} :
    {s : Stmt} → {code : List Instr} → LowersStmt declared role p s code p' →
    s.Printable declared.table.nameOf → (p.IsTop role → s.isDeclaration = true → s ∈ body) →
    Faithful declared body m → Mirrors (globalsIn body) m role p.scopes frames →
    (s.exec setting invoke frames).Lands m (Follows declared body role p'.scopes frames m)
  | .function _ _ _ _ _ _, _, .function htop, _, hmem, hfaith, hsite =>
    lands_function hprogram htop (hmem htop rfl) hfaith hsite
  | .var id type init loc, _, .global hrole hscopes hinit, hprintable, hmem, hfaith, hsite => by
    have htop : p.IsTop role := ⟨hrole, by rw [hscopes]; rfl⟩
    obtain ⟨rfl, rfl⟩ := hsite.of_isTop htop
    have hglobal : (id, type) ∈ globalsIn body :=
      List.mem_filterMap.2 ⟨_, hmem htop rfl, rfl⟩
    refine lands_var hprogram hlawful hinit hprintable.2.2 hfaith hsite
      (fun _ => List.mem_map_of_mem hglobal) fun m b hb hsite => ?_
    rw [hscopes] at hsite
    subst hb
    exact hsite.declareGlobal b hglobal
  | .var id type init loc, _, .local htop hscopes hinit, hprintable, _, hfaith, hsite => by
    obtain ⟨frame, rest, rfl, hframe⟩ := hsite.exists_frame htop hscopes
    refine lands_var hprogram hlawful hinit hprintable.2.2 hfaith hsite
      (fun hzero => absurd hzero hframe) fun m b hb hsite => ?_
    rw [hscopes] at hsite
    subst hb
    exact hsite.declareLocal hframe id _ b
  | .block stmts loc, _, .block hbody, hprintable, _, hfaith, hsite => by
    simp only [Stmt.exec]
    refine lands_note hfaith hsite fun m hfaith hsite => ?_
    have hnot := not_isTop_inner [] hsite.scopes_ne
    rw [hbody.grows.tail_eq]
    refine (lands_inFrame hfaith hsite fun m frame _ hfaith hsite => ?_).mono
      fun flow m' hkeeps => .of_keeps hkeeps hsite
    exact (lands_execAll hprogram hlawful hbody (Stmt.PrintableAll.of_mem hprintable)
      (fun h => absurd h hnot) hfaith hsite).mono fun _ _ h => h.1
  | .conditional cond stmt none loc, _, .ifThen hcond hbody, hprintable, _, hfaith, hsite => by
    simp only [Stmt.exec]
    refine lands_note hfaith hsite fun m hfaith hsite => ?_
    refine (lands_eval hprogram hlawful hcond hprintable.1.native hfaith hsite).bind fun v m' hkeeps => ?_
    have hsite' := hsite.evolve hkeeps.evolves
    have hnot := hprintable.2.1
    split
    · refine (lands_exec hprogram hlawful hbody hprintable.2.2 (fun _ h => ?_) hkeeps.faithful
        hsite').mono fun _ _ h => .trans (hkeeps.mono _) h
      exact absurd h (by simp [hnot])
    · rw [hbody.scopes_eq hprintable.2.2 hnot]
      exact Lands.pure (.of_keeps hkeeps hsite)
  | .conditional cond stmt (some other) loc, _, .ifElse hcond hbody hother, hprintable, _, hfaith, hsite => by
    obtain ⟨hprintableCond, ⟨hnot, hprintable⟩, _, hnot', hprintable'⟩ := hprintable
    simp only [Stmt.exec]
    refine lands_note hfaith hsite fun m hfaith hsite => ?_
    refine (lands_eval hprogram hlawful hcond hprintableCond.native hfaith hsite).bind fun v m' hkeeps => ?_
    have hsite' := hsite.evolve hkeeps.evolves
    split
    · rw [hother.scopes_eq hprintable' hnot']
      refine (lands_exec hprogram hlawful hbody hprintable (fun _ h => ?_) hkeeps.faithful
        hsite').mono fun _ _ h => .trans (hkeeps.mono _) h
      exact absurd h (by simp [hnot])
    · rw [← hbody.scopes_eq hprintable hnot] at hsite'
      refine (lands_exec hprogram hlawful hother hprintable' (fun _ h => ?_) hkeeps.faithful
        hsite').mono fun _ _ h => .trans (hkeeps.mono _) h
      exact absurd h (by simp [hnot'])
  | .loop cond stmt loc, _, .loop hcond hbody, hprintable, _, hfaith, hsite => by
    obtain ⟨hprintableCond, hnot, hprintable⟩ := hprintable
    simp only [Stmt.exec]
    refine lands_note hfaith hsite fun m hfaith hsite => ?_
    rw [hbody.scopes_eq hprintable hnot]
    refine Lands.whileLoop (fun m' h => ?_) (fun m' h => ?_) _ (.of_keeps (.refl hfaith) hsite)
    · refine (lands_eval hprogram hlawful hcond hprintableCond.native h.1.faithful (h.2 rfl)).map
        fun v m'' hkeeps => ?_
      exact .trans h.1 (.of_keeps hkeeps (h.2 rfl))
    · have hrun := lands_exec hprogram hlawful hbody hprintable (fun _ h => absurd h (by simp [hnot]))
        h.1.faithful (h.2 rfl)
      rw [hbody.scopes_eq hprintable hnot] at hrun
      exact hrun.mono fun _ _ h' => .trans h.1 h'
  | .returning value loc, _, .returning hvalue, hprintable, _, hfaith, hsite => by
    simp only [Stmt.exec]
    refine lands_note hfaith hsite fun m hfaith hsite => ?_
    refine (lands_evalOr hprogram hlawful hvalue hprintable hfaith hsite).bind fun v m' hkeeps => ?_
    exact Lands.pure (.of_keeps hkeeps hsite)
  | .expr e loc, _, .expr he, hprintable, _, hfaith, hsite => by
    simp only [Stmt.exec]
    refine lands_note hfaith hsite fun m hfaith hsite => ?_
    refine (lands_eval hprogram hlawful he (Expr.Formed.native e hprintable) hfaith hsite).bind
      fun v m' hkeeps => ?_
    exact Lands.pure (.of_keeps hkeeps hsite)

theorem lands_execAll (hprogram : Admissible declared body module)
    (hlawful : LawfulInvoke declared body invoke) {m : Machine} {frames : List Nat} {p p' : Progress} :
    {ss : List Stmt} → {code : List Instr} → LowersStmts declared role p ss code p' →
    (∀ s ∈ ss, s.Printable declared.table.nameOf) →
    (p.IsTop role → ∀ s ∈ ss, s ∈ body) →
    Faithful declared body m → Mirrors (globalsIn body) m role p.scopes frames →
    (Stmt.execAll setting invoke frames ss).Lands m (Follows declared body role p'.scopes frames m)
  | [], _, .nil, _, _, hfaith, hsite => Lands.pure (.of_keeps (.refl hfaith) hsite)
  | s :: rest, _, .cons hhead hrest, hprintable, hmem, hfaith, hsite => by
    simp only [Stmt.execAll]
    refine (lands_exec hprogram hlawful hhead (hprintable s List.mem_cons_self)
      (fun htop _ => hmem htop s List.mem_cons_self) hfaith hsite).bind fun flow m' h => ?_
    cases flow with
    | next =>
      have htop := hhead.grows.isTop hsite.scopes_ne
      refine (lands_execAll hprogram hlawful hrest (fun s hs => hprintable s (List.mem_cons_of_mem _ hs))
        (fun h s hs => hmem (htop h) s (List.mem_cons_of_mem _ hs)) h.1.faithful (h.2 rfl)).mono
        fun _ _ h' => .trans h.1 h'
    | returned v => exact Lands.pure ⟨h.1, nofun⟩

end

/-- Parameters are declared one after the other, each with its place. -/
theorem lands_bind {m : Machine} {scope : Scope} {rest : List Scope} {frame : Nat}
    {frames : List Nat} {params : List Param} {args : List Value}
    (index : Nat) (hlength : args.length = params.length) (hframe : frame ≠ 0)
    (hfaith : Faithful declared body m)
    (hsite : Mirrors (globalsIn body) m role (scope :: rest) (frame :: frames)) :
    (Closure.bind (frame :: frames) params args).Lands m fun _ m' =>
      Keeps declared body (some frame) (frame :: frames) m m' ∧
        Mirrors (globalsIn body) m' role
          ((((params.zipIdx index).map fun (p, i) => (p.id, ⟨.local (.param i), p.type⟩)).reverse ++
            scope) :: rest) (frame :: frames) := by
  induction params generalizing args index scope m with
  | nil => exact Lands.pure ⟨.refl hfaith, hsite⟩
  | cons p params ih =>
    cases args with
    | nil => cases hlength
    | cons v args =>
      refine (Lands.declare frame frames p.id p.type v).bind ?_
      rintro _ _ rfl
      have hchange := Keeps.modify hfaith (List.mem_cons_self (l := frames))
        (.declare m frame p.id ⟨v.narrow p.type, p.type⟩) fun hzero => absurd hzero hframe
      refine (ih (index + 1) (Nat.succ.inj hlength) hchange.faithful
        (hsite.declareLocal hframe p.id (.param index) _)).mono fun _ m' h => ?_
      refine ⟨hchange.trans h.1, ?_⟩
      simpa using h.2

/-- A call runs the body of the function where it is lowered: in a scope inside that of the
parameters. -/
theorem lawful_invokeWithin (setting : Setting) (hprogram : Admissible declared body module) (room : Nat) :
    LawfulInvoke declared body (Closure.invokeWithin setting room) := by
  induction room with
  | zero => exact fun g f args loc m _ _ _ _ _ => Lands.fault (.inr (.inr (.inr rfl))) _ _
  | succ room ih =>
    intro g f args loc m hf himp hlength hfaith hroot
    obtain ⟨func, _, code, p, hlowers, _⟩ := hprogram.lowersFunction hf
    have hcode := FunctionDecl.lowers hlowers himp.body_eq
    have hnot : ¬f.entry.IsTop (.function f.result) := nofun
    rw [← himp.params_eq] at hlength
    refine (Lands.note _).bind ?_
    rintro _ _ ⟨events, rfl⟩
    have htold : Keeps declared body none [0] m { m with events } := .of_frames hfaith rfl
    rw [himp.scope_eq]
    refine Lands.bind (?_ : Lands _ _ fun _ m' => Keeps declared body none [0] m m')
      fun flow m' h => Lands.pure h
    have hcall : Mirrors (globalsIn body) { m with events } (.function f.result) [] [0] :=
      .function hroot
    refine (lands_inFrame htold.faithful hcall fun m frame hframe hfaith hsite => ?_).mono
      fun _ _ h => htold.trans h
    refine (lands_bind 0 hlength hframe hfaith hsite).bind fun _ m' ⟨hkeeps, hsite⟩ => ?_
    refine (Lands.note _).bind ?_
    rintro _ _ ⟨events, rfl⟩
    have htold' : Keeps declared body none (frame :: [0]) m' { m' with events } :=
      .of_frames hkeeps.faithful rfl
    refine (lands_inFrame htold'.faithful (hsite.evolve htold'.evolves)
      fun m inner _ hfaith hsite => ?_).mono
        fun _ _ h => hkeeps.trans ((htold'.trans h).mono _)
    rw [himp.params_eq, List.append_nil] at hsite
    exact (lands_execAll hprogram ih hcode (hprogram.printable_function himp).2.2
      (fun h => absurd h hnot) hfaith hsite).mono fun _ _ h => h.1

end

theorem View.nameOf_eq_ok {declared : Declared} {id : Int} {name : String}
    (h : View.nameOf declared id = .ok name) : declared.table.nameOf id = name := by
  unfold View.nameOf SymbolTable.lookup at h
  unfold SymbolTable.nameOf
  cases hget : declared.table.get? id with
  | some symbol =>
    rw [hget] at h
    cases h
    rfl
  | none =>
    rw [hget] at h
    cases h

theorem mem_functionIds_of_mem {p : Program} {f : FunctionDecl}
    (h : f ∈ (Stmt.foldAll p.body).filterMap declaredFunction?) : f.id ∈ p.functionIds := by
  obtain ⟨stmts, bodyLoc, loc, hmem, _⟩ := mem_of_mem_declaredFunction? h
  exact List.mem_filterMap.2 ⟨_, hmem, rfl⟩

theorem map_fst_globalsIn (p : Program) : (globalsIn p.body).map (·.1) = p.variableIds := by
  rw [List.map_filterMap]
  refine congrArg (p.body.filterMap ·) (funext fun s => ?_)
  cases s <;> rfl

/-- A program that was read without a diagnostic and is lowered, with the functions that are
collected from it, is admissible if its names are unambiguous. -/
theorem exists_collected_admissible {file : String} {source : Source} {table : SymbolTable}
    (hclean : (Program.parse file source table).report = [])
    (hdistinct : ∀ id ∈ (Program.parse file source table).program.functionIds,
      id ∉ (Program.parse file source table).program.variableIds)
    (hprint : ∀ id ∈ (Program.parse file source table).program.variableIds,
      (Program.parse file source table).table.nameOf id ≠ "print") {module : Module}
    (hmodule : lowerProgram (Program.parse file source table).table
      (Program.parse file source table).program.fold = .ok module) :
    let parsed := Program.parse file source table
    ∃ functions, collectFunctions parsed.table [] parsed.program.fold.body = .ok functions ∧
      Admissible ⟨parsed.table, functions, collectGlobals [] parsed.program.fold.body⟩
        parsed.program.body module := by
  obtain ⟨functions, hfunctions, hlowers⟩ := lowersProgram_of_lowerProgram hmodule
  refine ⟨functions, hfunctions, hlowers, fun f hf => ?_, fun id hid hname => ?_, ?_⟩
  · rw [map_fst_globalsIn]
    exact hdistinct _ (mem_functionIds_of_mem (hlowers.functions_eq ▸ hf))
  · rw [map_fst_globalsIn] at hid
    have hnamed := View.nameOf_eq_ok hname
    exact hprint id hid hnamed
  · exact TokenStream.printable_of_clean hclean

theorem admissible_of_lowerProgram {file : String} {source : Source} {table : SymbolTable}
    (hclean : (Program.parse file source table).report = [])
    (hdistinct : ∀ id ∈ (Program.parse file source table).program.functionIds,
      id ∉ (Program.parse file source table).program.variableIds)
    (hprint : ∀ id ∈ (Program.parse file source table).program.variableIds,
      (Program.parse file source table).table.nameOf id ≠ "print") {module : Module}
    (hmodule : lowerProgram (Program.parse file source table).table
      (Program.parse file source table).program.fold = .ok module) :
    ∃ declared, declared.table = (Program.parse file source table).table ∧
      Admissible declared (Program.parse file source table).program.body module := by
  obtain ⟨_, _, hprogram⟩ := exists_collected_admissible hclean hdistinct hprint hmodule
  exact ⟨_, rfl, hprogram⟩

/-- The machine on which a program starts to run. -/
def startMachine (table : SymbolTable) : Machine := ⟨(Session.start table).frames, "", []⟩

theorem faithful_startMachine (declared : Declared) (body : List Stmt) :
    Faithful declared body (startMachine declared.table) := by
  intro id b hb _
  have hframe : (startMachine declared.table).frameAt 0 =
      [(printId declared.table, ⟨.func .print, .empty⟩)] := rfl
  rw [hframe, Frame.find?_cons] at hb
  split at hb
  · rename_i hid
    cases hb
    exact .inl ⟨rfl, hid.symm⟩
  · cases hb

theorem mirrors_startMachine (vars : List (Int × Datatype)) (table : SymbolTable) :
    Mirrors vars (startMachine table) .start Progress.start.scopes Session.scope :=
  .start Nat.zero_lt_one fun _ _ h => nomatch h

end Wat

namespace Session

theorem not_isMisuse_of_lands {s : Session} {α : Type} {action : Exec α}
    {post : α → Machine → Prop} (h : action.Lands ⟨s.frames, "", []⟩ post) {e : Halt}
    (hresult : (s.perform action).result = .error e) : ¬e.IsMisuse := by
  unfold Lands at h
  unfold perform at hresult
  cases hrun : action ⟨s.frames, "", []⟩ with
  | ok a m =>
    rw [hrun] at hresult
    cases hresult
  | error e' m =>
    rw [hrun] at h hresult
    cases hresult
    exact h

/-- A program that was read without a diagnostic, that has a lowering and that uses no name both
for a function and for a variable of its own, `print` included, never assigns what is no variable,
calls what is no function or passes a wrong number of arguments: whatever it runs, and for however
many rounds. -/
theorem run_of_toWat {file : String} {source : Source} {table : SymbolTable}
    (hclean : (Program.parse file source table).report = [])
    (hdistinct : ∀ id ∈ (Program.parse file source table).program.functionIds,
      id ∉ (Program.parse file source table).program.variableIds)
    (hprint : ∀ id ∈ (Program.parse file source table).program.variableIds,
      (Program.parse file source table).table.nameOf id ≠ "print") {text : String}
    (hwat : (Program.parse file source table).program.toWat (Program.parse file source table).table
      = .ok text) (s : Session) (hs : s.table = (Program.parse file source table).table)
    (options : RunOptions) {d : Diagnostic}
    (hrun : (s.run options (Program.parse file source table).program).result =
      .error (.fault d)) :
    d.code ≠ .invalidAssignTarget ∧ d.code ≠ .arityMismatch ∧ d.code ≠ .notCallable := by
  obtain ⟨module, hmodule, _⟩ := Wat.Except.bind_eq_ok.1 hwat
  obtain ⟨declared, htable, hprogram⟩ :=
    Wat.admissible_of_lowerProgram hclean hdistinct hprint hmodule
  obtain ⟨code, p, hcode, _⟩ := hprogram.start
  have hlands : (Stmt.execAll ((start s.table).setting options)
      (Closure.invoke ((start s.table).setting options)) scope _).Lands _ _ :=
    Wat.lands_execAll hprogram (Wat.lawful_invokeWithin _ hprogram maxCalls) hcode
      hprogram.printable (fun _ _ hs => hs) (Wat.faithful_startMachine declared _)
      (Wat.mirrors_startMachine _ declared.table)
  rw [htable, ← hs] at hlands
  have hmisuse := not_isMisuse_of_lands
    (hlands.bind fun flow m' _ => (by cases flow <;> exact Lands.pure trivial :
      Lands _ m' fun (_ : Int64) _ => True)) hrun
  exact ⟨fun h => hmisuse ⟨d, rfl, .inl h⟩, fun h => hmisuse ⟨d, rfl, .inr (.inl h)⟩,
    fun h => hmisuse ⟨d, rfl, .inr (.inr h)⟩⟩

/-- The parameter `n` hides the global, and a local variable hides the parameter. The run stops,
but not for misuse. -/
theorem run_of_toWat_division :
    let parsed := Program.parse "m" (Source.ofString
      "uint8 n = 2; fn f(int8 n): bool { { bool n = !n; return n; } } while (n) n -= f(0); n % n;")
      .empty
    let ran := run { start .empty with table := parsed.table } ⟨9, false, none⟩ parsed.program
    parsed.report = [] ∧ (∀ id ∈ parsed.program.functionIds, id ∉ parsed.program.variableIds) ∧
      (∀ id ∈ parsed.program.variableIds, parsed.table.nameOf id ≠ "print") ∧
      (∃ text, parsed.program.toWat parsed.table = .ok text) ∧
      (match ran.result with
        | .error (.fault d) => some d.code
        | _ => none) = some .divisionByZero ∧
      ∀ d, ran.result = .error (.fault d) →
        d.code ≠ .invalidAssignTarget ∧ d.code ≠ .arityMismatch ∧ d.code ≠ .notCallable := by
  intro parsed ran
  have hclean : parsed.report = [] := by decide +kernel
  have hdistinct : ∀ id ∈ parsed.program.functionIds, id ∉ parsed.program.variableIds := by
    decide +kernel
  have hprint : ∀ id ∈ parsed.program.variableIds, parsed.table.nameOf id ≠ "print" := by
    decide +kernel
  have hlowered : (parsed.program.toWat parsed.table).isOk = true := by decide +kernel
  obtain ⟨text, hwat⟩ : ∃ text, parsed.program.toWat parsed.table = .ok text := by
    generalize parsed.program.toWat parsed.table = result at hlowered
    cases result with
    | ok text => exact ⟨text, rfl⟩
    | error e => cases hlowered
  have htable : ∀ (s : Session) table, { s with table }.table = table := fun _ _ => rfl
  exact ⟨hclean, hdistinct, hprint, ⟨text, hwat⟩, by decide +kernel, fun d hrun =>
    run_of_toWat hclean hdistinct hprint hwat _ (htable _ _) ⟨9, false, none⟩ hrun⟩

end Session

end Ember
