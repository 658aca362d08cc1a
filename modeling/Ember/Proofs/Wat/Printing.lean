import Ember.Proofs.Run.Lines
import Ember.Proofs.Wat.Correctness
import Ember.Proofs.Wat.Output
import Ember.Proofs.Wat.Spelling

namespace Ember.Wat

open Exec

/-- What the arguments of a line write while they are evaluated, each with its value. -/
abbrev Written := List (String × Value)

namespace Written

/-- What the arguments write, and the line of their values after it. -/
def line (ws : Written) : String :=
  String.join (ws.map (·.1)) ++ " ".intercalate (ws.map (·.2.render)) ++ "\n"

/-- The line with each value after what its own argument writes. -/
def pieces (ws : Written) : String :=
  " ".intercalate (ws.map fun w => w.1 ++ w.2.render) ++ "\n"

end Written

theorem not_newline_mem_render {v : Value} (h : v.word?.isSome) : '\n' ∉ v.render.toList := by
  have hword : ∀ {text : String}, IsWord text → '\n' ∉ text.toList := fun hword hmem =>
    absurd (hword.2 _ hmem) (by decide)
  cases v with
  | void | func => cases h
  | int n => exact hword (isWord_toString_int _)
  | uint n => exact hword (isWord_toString_nat _)
  | bool b => cases b <;> decide

/-- What comes before a text with a newline cannot be passed over it. -/
theorem eq_empty_of_append_eq {c text x y : String} (hc : '\n' ∉ c.toList)
    (htext : '\n' ∈ text.toList) (h : text ++ x = c ++ (text ++ y)) : c = "" := by
  have hidx := congrArg (fun s => s.toList.idxOf '\n') h
  simp only [String.toList_append] at hidx
  rw [List.idxOf_append, if_pos htext, List.idxOf_append, if_neg hc, List.idxOf_append,
    if_pos htext] at hidx
  have hlength : c.toList.length = 0 := by omega
  exact String.toList_eq_nil_iff.1 (List.length_eq_zero_iff.1 hlength)

namespace Written

/-- The two texts are the same only if nothing is written after the beginning `c` of the line. -/
theorem eq_empty_of_append_eq {ws : Written}
    (hws : ∀ w ∈ ws, IsLines w.1 ∧ '\n' ∉ w.2.render.toList) {c : String}
    (hc : '\n' ∉ c.toList) (hne : c ≠ "")
    (h : String.join (ws.map (·.1)) ++ (c ++ " ".intercalate (ws.map (·.2.render))) =
      c ++ " ".intercalate (ws.map fun w => w.1 ++ w.2.render)) : ∀ w ∈ ws, w.1 = "" := by
  induction ws generalizing c with
  | nil => exact List.forall_mem_nil _
  | cons w rest ih =>
    obtain ⟨⟨hlines, hrender⟩, hrest⟩ := List.forall_mem_cons.1 hws
    obtain ⟨text, v⟩ := w
    rcases hlines with rfl | ⟨before, rfl⟩
    · refine List.forall_mem_cons.2 ⟨rfl, ?_⟩
      cases rest with
      | nil => exact List.forall_mem_nil _
      | cons w' rest =>
        refine ih hrest (c := c ++ v.render ++ " ") ?_ ?_ ?_
        · simp [hc, hrender]
        · simp
        · simpa [String.intercalate_cons_cons, String.append_assoc] using h
    · obtain ⟨y, hy⟩ : ∃ y, " ".intercalate (((before ++ "\n", v) :: rest).map fun w =>
          w.1 ++ w.2.render) = before ++ "\n" ++ y := by
        cases rest with
        | nil => exact ⟨v.render, by simp⟩
        | cons w' rest =>
          exact ⟨_, by simp [String.intercalate_cons_cons, String.append_assoc]; rfl⟩
      rw [List.map_cons, String.join_cons, String.append_assoc, hy] at h
      exact absurd (Wat.eq_empty_of_append_eq hc (by simp) h) hne

/-- The two texts are the same exactly if no argument but the first writes anything. -/
theorem pieces_eq_line_iff {ws : Written}
    (hws : ∀ w ∈ ws, IsLines w.1 ∧ '\n' ∉ w.2.render.toList) :
    ws.pieces = ws.line ↔ ∀ w ∈ ws.tail, w.1 = "" := by
  cases ws with
  | nil => exact ⟨fun _ => List.forall_mem_nil _, fun _ => rfl⟩
  | cons w rest =>
    obtain ⟨⟨_, hrender⟩, hrest⟩ := List.forall_mem_cons.1 hws
    rw [pieces, line, String.append_left_inj, List.tail_cons]
    constructor
    · intro h
      cases rest with
      | nil => exact List.forall_mem_nil _
      | cons w' rest =>
        refine eq_empty_of_append_eq hrest (c := w.2.render ++ " ") ?_ ?_ ?_
        · simp [hrender]
        · simp
        · simpa [String.intercalate_cons_cons, String.append_assoc] using h.symm
    · intro h
      have hjoin : String.join (rest.map (·.1)) = "" := by
        rw [List.map_congr_left h]
        induction rest <;> simp_all
      have hrenders : (rest.map fun w => w.1 ++ w.2.render) = rest.map (·.2.render) :=
        List.map_congr_left fun w hw => by rw [h w hw, String.empty_append]
      rw [List.map_cons, hrenders, List.map_cons, String.join_cons, hjoin, String.append_empty,
        List.map_cons]
      cases rest with
      | nil => simp
      | cons w' rest => simp [String.intercalate_cons_cons, String.append_assoc]

end Written

/-- The expressions are evaluated one after the other, with what each of them writes. -/
inductive EvaluatesTo (setting : Setting) (invoke : Invoke) (frames : List Nat) :
    List Expr → Machine → Written → Machine → Prop
  | nil (m : Machine) : EvaluatesTo setting invoke frames [] m [] m
  | cons {e : Expr} {rest : List Expr} {text : String} {v : Value} {ws : Written}
      {m m' m'' : Machine} (heval : e.eval setting invoke frames m = .ok v m')
      (htext : m'.output = m.output ++ text)
      (hrest : EvaluatesTo setting invoke frames rest m' ws m'') :
      EvaluatesTo setting invoke frames (e :: rest) m ((text, v) :: ws) m''

section

variable {declared : Declared} {body : List Stmt} {module : Module} {setting : Setting}
  {invoke : Invoke} {course : CallCourse} {calls : Calls} {rounds limit : Nat} {role : Role}
  {scopes : List Scope} {frames : List Nat}

namespace EvaluatesTo

variable {es : List Expr} {ws : Written} {m m' : Machine}

theorem length_eq (h : EvaluatesTo setting invoke frames es m ws m') : ws.length = es.length := by
  induction h with
  | nil => rfl
  | cons _ _ _ ih => exact congrArg (· + 1) ih

theorem output_eq (h : EvaluatesTo setting invoke frames es m ws m') :
    m'.output = m.output ++ String.join (ws.map (·.1)) := by
  induction h with
  | nil m => simp
  | cons _ htext _ ih => rw [ih, htext, List.map_cons, String.join_cons, String.append_assoc]

/-- What the expressions write is determined. -/
theorem unique {ws' : Written} {m'' : Machine} (h : EvaluatesTo setting invoke frames es m ws m')
    (h' : EvaluatesTo setting invoke frames es m ws' m'') : ws = ws' ∧ m' = m'' := by
  induction h generalizing ws' m'' with
  | nil => cases h'; exact ⟨rfl, rfl⟩
  | cons heval htext _ ih =>
    cases h' with
    | cons heval' htext' hrest' =>
      cases heval.symm.trans heval'
      obtain rfl := (String.append_right_inj _).1 (htext.symm.trans htext')
      obtain ⟨rfl, rfl⟩ := ih hrest'
      exact ⟨rfl, rfl⟩

theorem isLines (hinvoke : invoke.WritesLines) (h : EvaluatesTo setting invoke frames es m ws m') :
    ∀ w ∈ ws, IsLines w.1 := by
  induction h with
  | nil => exact List.forall_mem_nil _
  | @cons e rest text v ws m m' m'' heval htext _ ih =>
    refine List.forall_mem_cons.2 ⟨?_, ih⟩
    obtain ⟨written, houtput, hlines⟩ := Exec.WritesLines.eval hinvoke frames e m
    rw [final_of_ok heval, htext, String.append_right_inj] at houtput
    exact houtput ▸ hlines

end EvaluatesTo

/-- A place of the program at run time. The scopes of the lowering stand for the frames of the
machine, and the store holds what the machine holds, up to the text that was written. -/
structure Site (declared : Declared) (body : List Stmt) (role : Role) (scopes : List Scope)
    (frames : List Nat) (limit : Nat) (m : Machine) (s : Store) : Prop where
  tidy : (localsOf scopes).Nodup
  faithful : Faithful declared body m
  mirrors : Mirrors (globalsIn body) m role scopes frames
  agrees : Agrees body "" limit scopes frames m { s with output := m.output }

/-- What an argument does on a store with a text of its own. -/
theorem Site.ends_eval (hprogram : Unambiguous declared body module)
    (hlawful : LawfulInvoke declared body invoke)
    (hcalls : Reproduces declared body invoke course calls) (hblind : calls.Blind) (rounds : Nat)
    {m : Machine} {s : Store} (hsite : Site declared body role scopes frames limit m s) {e : Expr}
    {code : List Instr} (hcode : Lowers ⟨declared, role, scopes⟩ e code) (hnative : e.Native)
    (hanswers : ∀ c ∈ e.callees, c.answers declared.table body) :
    (e.eval setting invoke frames).Ends (e.course setting invoke course frames) m fun v m' =>
      ∃ w s' text, Takes calls rounds code [] s [.i64 w] s' ∧ m'.output = m.output ++ text ∧
        s'.output = s.output ++ text ∧
        v.Is w (View.isUnsigned ⟨declared, role, scopes⟩ e.fold)
          (View.isBool ⟨declared, role, scopes⟩ e.fold) ∧
        Site declared body role scopes frames limit m' s' := by
  have hquiet : ∀ c ∈ e.callees, c.answers declared.table body ∧ "" = "" :=
    fun c hc => ⟨hanswers c hc, rfl⟩
  refine (Wat.ends_eval rounds hprogram hlawful hcalls hsite.tidy hcode hnative hquiet
    hsite.faithful hsite.mirrors hsite.agrees).mono ?_
  rintro v m' ⟨hkeeps, w, s', htakes, his, hagrees⟩
  obtain ⟨text, htext, helsewhere⟩ := htakes.elsewhere hblind s.output
  have houtput : s'.output = m'.output := hagrees.output_eq.trans (String.append_empty)
  refine ⟨w, { s' with output := s.output ++ text }, text, helsewhere, houtput ▸ htext, rfl, his,
    hsite.tidy, hkeeps.faithful, hsite.mirrors.evolve hkeeps.evolves, ?_⟩
  rw [← houtput]
  exact hagrees

/-- What is written is no matter of the place. -/
theorem Site.write {m : Machine} {s : Store} (h : Site declared body role scopes frames limit m s)
    (text text' : String) :
    Site declared body role scopes frames limit { m with output := text }
      { s with output := text' } := by
  have hkeeps : Keeps declared body none frames m { m with output := text } :=
    .of_frames h.faithful rfl
  obtain ⟨⟨_, hplaced, hglobals⟩, htemps, hlocals⟩ := h.agrees
  exact ⟨h.tidy, hkeeps.faithful, h.mirrors.evolve hkeeps.evolves,
    ⟨String.append_empty.symm, hplaced, hglobals⟩, htemps, hlocals⟩

/-- The instructions write the pieces of the line one after the other. -/
theorem Site.ends_evalAll (hprogram : Unambiguous declared body module)
    (hlawful : LawfulInvoke declared body invoke)
    (hcalls : Reproduces declared body invoke course calls) (hblind : calls.Blind) (rounds : Nat)
    {m : Machine} {s : Store} :
    {es : List Expr} → {code : List Instr} → LowersPrinted ⟨declared, role, scopes⟩ es code →
    Expr.NativeAll es → (∀ c ∈ Expr.calleesAll es, c.answers declared.table body) →
    Site declared body role scopes frames limit m s →
    (Expr.evalAll setting invoke frames es).Ends (Expr.courseAll setting invoke course frames es) m
      fun values m' => ∃ ws s', EvaluatesTo setting invoke frames es m ws m' ∧
        ws.map (·.2) = values ∧ (∀ w ∈ ws, w.2.word?.isSome) ∧
        Takes calls rounds code [] s [] s' ∧
        s'.output = s.output ++ " ".intercalate (ws.map fun w => w.1 ++ w.2.render) ∧
        Site declared body role scopes frames limit m' s'
  | _, _, .nil, _, _, hsite => by
    refine Ends.pure ⟨[], s, .nil m, rfl, List.forall_mem_nil _, Takes.nil, ?_, hsite⟩
    simp
  | _, _, @LowersPrinted.last _ e _ hlast, hnative, hanswers, hsite => by
    rw [Expr.calleesAll, List.forall_mem_append] at hanswers
    refine Ends.bind ((hsite.ends_eval hprogram hlawful hcalls hblind rounds hlast hnative.1
      hanswers.1).and_ran.mono ?_)
    rintro v m₁ ⟨hran, w, s₁, text, htakes, htext, houtput, his, hsite₁⟩
    refine Ends.pure ⟨[(text, v)], _, .cons hran htext (.nil m₁), rfl,
      List.forall_mem_singleton.2 (by simp [his.word_eq]), htakes.append (takes_printer hcalls his),
      ?_, hsite₁.write _ _⟩
    simp [houtput, String.append_assoc]
  | _, _, @LowersPrinted.cons _ e rest _ _ hhead hmore hrest, hnative, hanswers, hsite => by
    rw [Expr.calleesAll, List.forall_mem_append] at hanswers
    refine Ends.bind ((hsite.ends_eval hprogram hlawful hcalls hblind rounds hhead hnative.1
      hanswers.1).and_ran.mono ?_)
    rintro v m₁ ⟨hran, w, s₁, text, htakes, htext, houtput, his, hsite₁⟩
    refine Ends.bind_last ((Site.ends_evalAll hprogram hlawful hcalls hblind rounds hrest hnative.2
      hanswers.2 (hsite₁.write m₁.output (s₁.output ++ v.render ++ " "))).mono ?_)
    rintro values m₂ ⟨ws, s₂, hevaluates, hvalues, hwords, htakes₂, houtput₂, hsite₂⟩
    have hspace : Takes calls rounds [.call .printSpace] []
        { s₁ with output := s₁.output ++ v.render } []
        { s₁ with output := s₁.output ++ v.render ++ " " } :=
      Takes.call fun stack => by rw [hcalls.host .printSpace (by simp)]; rfl
    refine Ends.pure ⟨(text, v) :: ws, s₂, .cons hran htext hevaluates, by rw [← hvalues]; rfl,
      List.forall_mem_cons.2 ⟨by simp [his.word_eq], hwords⟩,
      (htakes.append (takes_printer hcalls his)).append (hspace.append htakes₂), ?_, hsite₂⟩
    have hws : ws ≠ [] := fun hnil => hmore <| by
      have hlength := hevaluates.length_eq
      rw [hnil] at hlength
      exact List.length_eq_zero_iff.1 hlength.symm
    rw [houtput₂, List.map_cons, String.intercalate_cons_of_ne_nil (by simpa using hws)]
    simp [houtput, String.append_assoc]

/-- A call of `print` writes the line of its arguments. Its instructions write the pieces. -/
theorem Site.ends_print (hprogram : Unambiguous declared body module)
    (hlawful : LawfulInvoke declared body invoke)
    (hcalls : Reproduces declared body invoke course calls) (hblind : calls.Blind) (rounds : Nat)
    {m : Machine} {s : Store} (hsite : Site declared body role scopes frames limit m s)
    {callee : Expr} {args : List Expr} {loc : Location} {id : Int} {code : List Instr}
    (hcallee : callee.named? = some id) (hvar : View.lookup ⟨declared, role, scopes⟩ id = none)
    (hfunction : View.function? ⟨declared, role, scopes⟩ id = none)
    (hname : View.nameOf declared id = .ok "print")
    (hargs : LowersPrinted ⟨declared, role, scopes⟩ args code) (hnative : Expr.NativeAll args)
    (hanswers : ∀ c ∈ Expr.calleesAll args, c.answers declared.table body) :
    (Expr.eval setting invoke frames (.call callee args loc)).Ends
      (Expr.course setting invoke course frames (.call callee args loc)) m fun _ m' =>
        ∃ ws m₁ s', EvaluatesTo setting invoke frames args m ws m₁ ∧
          (∀ w ∈ ws, w.2.word?.isSome) ∧ m'.output = m.output ++ ws.line ∧
          Takes calls rounds (code ++ [.call .printNewline, .const 0]) [] s [.i64 0] s' ∧
          s'.output = s.output ++ ws.pieces ∧
          Site declared body role scopes frames limit m' s' := by
  refine ends_callee hprogram hcallee hvar (fun hid => hprogram.noPrint _ hid hname)
    hsite.faithful hsite.mirrors ?_
  rintro callable (⟨rfl, _⟩ | ⟨f, g, hf, hfid, _⟩)
  · have hcheck : (Callable.print.checkArity args.length loc).Lands m fun _ m' => m' = m :=
      Lands.pure rfl
    refine Ends.after hcheck ?_
    rintro _ _ rfl
    refine Ends.bind ((hsite.ends_evalAll hprogram hlawful hcalls hblind rounds hargs hnative
      hanswers).mono ?_)
    rintro values m₁ ⟨ws, s₁, hevaluates, rfl, hwords, htakes, houtput, hsite₁⟩
    refine Ends.bind_last (ends_writeLine.mono ?_)
    rintro _ _ rfl
    have hnewline : Takes calls rounds [.call .printNewline, .const 0] [] s₁ [.i64 0]
        { s₁ with output := s₁.output ++ "\n" } :=
      (Takes.call fun stack => by rw [hcalls.host .printNewline nofun]; rfl).append (Takes.const 0)
    refine Ends.pure ⟨ws, m₁, _, hevaluates, hwords, ?_, htakes.append hnewline, ?_, ?_⟩
    · simp [hevaluates.output_eq, Written.line, String.append_assoc, Function.comp_def]
    · simp [houtput, Written.pieces, String.append_assoc]
    · exact hsite₁.write _ _
  · have hnone := List.find?_eq_none.1 hfunction f hf
    exact absurd hfid (by simpa using hnone)

/-- Wherever a call of `print` stands that is lowered, in a program whose functions do the same
after they are lowered: if the arguments call nothing but what gives a value, and the call ends,
then its instructions run through. The program writes what the arguments write, one after the other,
and then their values in a line. The instructions write each value after what its own argument
writes. These texts are the same exactly if no argument but the first writes anything. -/
theorem print_pieces (hprogram : Unambiguous declared body module)
    (hfunctions : FunctionsSupported declared.table body) {room depth : Nat}
    (hbudget : setting.budget ≤ rounds) (hdepth : room ≤ depth) {m m' : Machine} {s : Store}
    (hsite : Site declared body role scopes frames limit m s) {callee : Expr} {args : List Expr}
    {loc : Location} {code : List Instr} {v : Value}
    (hcallee : View.callee ⟨declared, role, scopes⟩ callee args.length loc = .ok .print)
    (hcode : lowerExpr ⟨declared, role, scopes⟩ (Expr.call callee args loc).fold = .ok code)
    (hnative : Expr.NativeAll args)
    (hanswers : ∀ c ∈ Expr.calleesAll args, c.answers declared.table body)
    (hrun : (Expr.call callee args loc).eval setting (Closure.invokeWithin setting room) frames m =
      .ok v m')
    (havoid : ∀ x ∈ (Expr.call callee args loc).course setting (Closure.invokeWithin setting room)
      (Closure.courseWithin setting room) frames m, ¬x.Overflows) :
    ∃ ws m₁ s', EvaluatesTo setting (Closure.invokeWithin setting room) frames args m ws m₁ ∧
      m'.output = m.output ++ ws.line ∧
      (∀ stack, Instr.runAll (module.callWithin rounds depth) rounds code ⟨stack, s⟩ =
        .ok (.next, ⟨.i64 0 :: stack, s'⟩)) ∧
      s'.output = s.output ++ ws.pieces ∧
      Site declared body role scopes frames limit m' s' ∧
      (ws.pieces = ws.line ↔ ∀ w ∈ ws.tail, w.1 = "") := by
  obtain ⟨id, hid, hvar, hfunction, hname⟩ := View.callee_eq_ok hcallee
  cases lowers_of_lowerExpr _ hcode with
  | constant hfold => simp [Expr.fold] at hfold
  | call hid' _ hfunction' =>
    cases hid.symm.trans hid'
    cases hfunction.symm.trans hfunction'
  | print hid' _ _ _ hargs =>
    obtain ⟨ws, m₁, s', hevaluates, hwords, hline, htakes, hpieces, hsite'⟩ :=
      hsite.ends_print hprogram (lawful_invokeWithin setting hprogram.toAdmissible room)
        (reproduces_callWithin hbudget hprogram hfunctions room hdepth)
        (module.blind_callWithin rounds depth) rounds hid hvar hfunction hname hargs hnative
        hanswers v m' hrun havoid
    have hlines := hevaluates.isLines (Closure.invokeWithin_writesLines setting room)
    refine ⟨ws, m₁, s', hevaluates, hline, htakes, hpieces, hsite', ?_⟩
    exact Written.pieces_eq_line_iff fun w hw =>
      ⟨hlines w hw, not_newline_mem_render (hwords w hw)⟩

end

/-- The function `f` writes a line and gives a value. It is called for the first value that is
printed, and for the last. -/
theorem print_pieces_between :
    let table : SymbolTable := ⟨#[⟨"print", .empty⟩, ⟨"f", .int32⟩]⟩
    let stmts : List Stmt := [.expr (.call (.var 0 .none) [.literal (.int 7) .none] .none) .none,
      .returning (some (.literal (.int 1) .none)) .none]
    let args : List Expr :=
      [.call (.var 1 .none) [] .none, .literal (.int 2) .none, .call (.var 1 .none) [] .none]
    let e : Expr := .call (.var 0 .none) args .none
    let body : List Stmt := [.function 1 [] .int32 stmts .none .none, .expr e .none]
    let declared : Declared := ⟨table, [⟨1, [], .int32, stmts⟩], []⟩
    let code : List Instr := [.call (.user 1), .call .printI64, .call .printSpace, .const 2,
      .call .printI64, .call .printSpace, .call (.user 1), .call .printI64, .call .printNewline,
      .const 0]
    let module : Module := ⟨[], [⟨1, 0, 0, [.const 7, .call .printI64, .call .printNewline,
      .const 0, .drop, .const 1, .num .extend32S, .ret, .const 0]⟩], 0, code ++ [.drop, .const 0]⟩
    let m : Machine := ⟨#[[(1, ⟨.func (.closure ⟨"f", [], .int32, stmts, [0]⟩), .empty⟩),
      (0, ⟨.func .print, .empty⟩)]], "", []⟩
    let s : Store := ⟨entryLocals [] 0, fun _ => none, ""⟩
    let setting : Setting := ⟨table, 1, false, none⟩
    let ws : Written := [("7\n", .int 1), ("", .int 2), ("7\n", .int 1)]
    Unambiguous declared body module ∧ FunctionsSupported table body ∧
      Site declared body .start [[]] [0] 0 m s ∧
      ∃ m₁ s', EvaluatesTo setting (Closure.invokeWithin setting 2) [0] args m ws m₁ ∧
        (∀ stack, Instr.runAll (module.callWithin 1 2) 1 code ⟨stack, s⟩ =
          .ok (.next, ⟨.i64 0 :: stack, s'⟩)) ∧
        ws.line = "7\n7\n1 2 1\n" ∧ s'.output = "7\n1 2 7\n1\n" := by
  intro table stmts args e body declared code module m s setting ws
  have hprint : IsName (table.nameOf 0) := by unfold IsName; decide +kernel
  have hf : IsName (table.nameOf 1) := by unfold IsName; decide +kernel
  have hone : Literal.Printable (.int 1) := .inr ⟨1, by decide, rfl⟩
  have htwo : Literal.Printable (.int 2) := .inr ⟨2, by decide, rfl⟩
  have hseven : Literal.Printable (.int 7) := .inr ⟨7, by decide, rfl⟩
  have hprintable : ∀ s ∈ body, s.Printable table.nameOf := by
    refine List.forall_mem_cons.2 ⟨⟨hf, List.forall_mem_nil _, rfl, rfl,
      ⟨rfl, hprint, hseven, trivial⟩, rfl, ?_, trivial⟩, List.forall_mem_singleton.2 ?_⟩
    · rintro _ ⟨⟩
      exact hone
    · exact ⟨rfl, hprint, ⟨rfl, hf, trivial⟩, htwo, ⟨rfl, hf, trivial⟩, trivial⟩
  have hprogram : Unambiguous declared body module :=
    { functions_eq := rfl
      functions_nodup := by decide
      globalsOf := ⟨fun _ hx => hx, List.Subset.refl _, .nil⟩
      globals_eq := rfl
      funcs := .cons ⟨_, _, rfl, rfl⟩ .nil
      start_eq := ⟨code ++ [.drop], .start, rfl, rfl, rfl⟩
      distinct := fun _ _ => List.not_mem_nil
      noPrint := List.forall_mem_nil _
      printable := hprintable
      nodup := List.nodup_nil
      printId_notMem := List.not_mem_nil
      function_ne := by decide +kernel }
  have hfunctions : FunctionsSupported table body := by
    unfold FunctionsSupported
    decide +kernel
  have hsite : Site declared body .start [[]] [0] 0 m s := by
    refine ⟨List.nodup_nil, fun id b hb _ => ?_, .start (by decide) nofun,
      ⟨rfl, List.forall_mem_nil _, fun _ _ _ hmem => absurd hmem List.not_mem_nil⟩, nofun, ?_⟩
    · obtain ⟨_, hfind, rfl⟩ := Option.map_eq_some_iff.1 hb
      have hid := List.find?_some hfind
      rcases List.mem_pair.1 (List.mem_of_find?_eq_some hfind) with rfl | rfl
      · exact .inr ⟨_, _, List.mem_singleton_self _, by simpa using hid, rfl, rfl, rfl, rfl, rfl,
          .none, .none, List.mem_cons_self⟩
      · exact .inl ⟨rfl, (by simpa using hid : 0 = id).symm.trans (by decide +kernel)⟩
    · rintro scope frame id slot x hmem hslot -
      cases List.mem_singleton.1 hmem
      cases hslot
  have hlowered : lowerExpr ⟨declared, .start, [[]]⟩ e.fold = .ok code := rfl
  have havoid : ∀ x ∈ e.course setting (Closure.invokeWithin setting 2)
      (Closure.courseWithin setting 2) [0] m, ¬x.Overflows := by decide +kernel
  obtain ⟨ws', m₁, s', hevaluates, -, hcode, houtput, -, -⟩ :=
    print_pieces hprogram hfunctions (Nat.le_refl 1) (Nat.le_refl 2) hsite rfl hlowered
      ⟨⟨trivial, trivial⟩, trivial, ⟨trivial, trivial⟩, trivial⟩ (by decide) rfl havoid
  have hws : EvaluatesTo setting (Closure.invokeWithin setting 2) [0] args m ws _ :=
    .cons rfl rfl (.cons rfl rfl (.cons rfl rfl (.nil _)))
  obtain ⟨rfl, -⟩ := hevaluates.unique hws
  exact ⟨hprogram, hfunctions, hsite, m₁, s', hevaluates, hcode, by decide +kernel,
    houtput.trans (by decide +kernel)⟩

/-- What an argument writes stands in the middle of a line that is printed. The program writes it
before the line. -/
theorem execute_print_ne_run :
    let parsed := Program.parse "m" (Source.ofString
      "fn f(): int32 { print(7); return 1; } print(2, f());") .empty
    let ran := { Session.start .empty with table := parsed.table }.run ⟨1, false, none⟩
      parsed.program
    parsed.report = [] ∧ ran.result = .ok 0 ∧ ran.output = "7\n2 1\n" ∧
      ∃ module, lowerProgram parsed.table parsed.program.fold = .ok module ∧
        module.execute 1 2 = .ok (0, "2 7\n1\n") ∧ module.execute 1 2 ≠ .ok (0, ran.output) := by
  intro parsed ran
  -- One evaluation, so that the text is read once.
  obtain ⟨hclean, hcode, houtput, hexecute⟩ : parsed.report = [] ∧ ran.result.toOption = some 0 ∧
      ran.output = "7\n2 1\n" ∧
      ((lowerProgram parsed.table parsed.program.fold).toOption.bind
        fun module => (module.execute 1 2).toOption) = some (0, "2 7\n1\n") := by
    decide +kernel
  obtain ⟨module, hmodule, hexecute⟩ := Option.bind_eq_some_iff.1 hexecute
  have hok : ∀ {ε α : Type} {x : Except ε α} {a : α}, x.toOption = some a → x = .ok a := by
    rintro ε α (e | a) b ⟨⟩
    rfl
  refine ⟨hclean, hok hcode, houtput, module, hok hmodule, hok hexecute, ?_⟩
  rw [hok hexecute, houtput]
  simp

end Ember.Wat
