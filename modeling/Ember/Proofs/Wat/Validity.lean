import Ember.Proofs.Wat.Typing

namespace Ember

namespace Wat

/-- What a function of the program is called with and leaves. -/
def Func.signature (f : Func) : String × Signature :=
  ((FuncRef.user f.id).name, ⟨List.replicate f.params .i64, [.i64]⟩)

theorem Module.signatures_text (m : Module) :
    m.text.signatures = hostImports.map (fun i => (i.name, ⟨i.params, []⟩)) ++
      (m.funcs.map Func.signature ++ [("$_start", ⟨[], [.i64]⟩)]) := by
  have hparams : ∀ f : Func, (f.text.params.map fun _ => ValType.i64) =
      List.replicate f.params .i64 := by
    intro f
    simp [Func.text, paramNames, Function.comp_def]
  simp only [TextModule.signatures, Module.text, List.map_append, List.map_map, List.map_cons,
    List.map_nil]
  congr 2
  refine List.map_congr_left fun f _ => ?_
  simp only [Function.comp_apply, hparams]
  rfl

section

variable {declared : Declared} {body : List Stmt} {m : Module}

theorem LowersProgram.ids_eq (h : LowersProgram declared body m) :
    m.funcs.map (·.id) = declared.functions.map (·.id) := by
  have hfuncs := h.funcs
  generalize declared.functions = fs, m.funcs = gs at hfuncs
  induction hfuncs with
  | nil => rfl
  | cons hhead _ ih =>
    obtain ⟨_, _, _, rfl⟩ := hhead
    rw [List.map_cons, List.map_cons, ih]

theorem LowersProgram.signatures_nodup (h : LowersProgram declared body m) :
    (m.text.signatures.map (·.1)).Nodup := by
  have husers : (m.funcs.map fun f => (FuncRef.user f.id).name).Nodup := by
    have hids : (m.funcs.map (·.id)).Nodup := h.ids_eq ▸ h.functions_nodup
    have hnames := hids.map (f := fun id => (FuncRef.user id).name) fun _ _ => userName_injective
    rwa [List.map_map] at hnames
  have huser : ∀ name ∈ m.funcs.map fun f => (FuncRef.user f.id).name,
      ∃ id, name = (FuncRef.user id).name := by
    intro name hname
    obtain ⟨f, _, rfl⟩ := List.mem_map.1 hname
    exact ⟨f.id, rfl⟩
  simp only [Module.signatures_text, List.map_append, List.map_map, List.map_cons, List.map_nil]
  refine List.nodup_append.2 ⟨by decide, List.nodup_append.2 ⟨husers, by simp, ?_⟩, ?_⟩
  · intro name hname other hother heq
    obtain ⟨id, rfl⟩ := huser name hname
    exact userName_ne id (by decide) (heq.trans (List.mem_singleton.1 hother))
  · intro name hname other hother heq
    subst heq
    rcases List.mem_append.1 hother with hother | hother
    · obtain ⟨id, rfl⟩ := huser name hother
      have hhosts : ∀ host ∈ hostImports.map (·.name), host.toList[1]? ≠ some 'f' := by decide
      exact userName_ne id (hhosts _ hname) rfl
    · rw [List.mem_singleton.1 hother] at hname
      revert hname
      decide

theorem LowersProgram.globals_nodup (h : LowersProgram declared body m) :
    m.text.globals.Nodup := by
  have hids : m.globals.Nodup := by
    rw [h.globals_eq]
    exact h.globalsOf.sorted.imp fun hlt => Int.ne_of_lt hlt
  exact hids.map fun _ _ => globalName_injective

end

/-- The names of the variables of a function. -/
theorem localNames_nodup (params temps : Nat) : (paramNames params ++ tempNames temps).Nodup := by
  have hlocals : ((List.range params).map Local.param ++ (List.range temps).map Local.temp).Nodup := by
    refine List.nodup_append.2 ⟨?_, ?_, ?_⟩
    · exact List.nodup_range.map fun _ _ => Local.param.inj
    · exact List.nodup_range.map fun _ _ => Local.temp.inj
    · simp
  have hnames := hlocals.map (f := Local.name) fun _ _ => Local.name_injective
  rwa [List.map_append, List.map_map, List.map_map] at hnames

theorem declaredOnce_temp {temps i : Nat} (hi : i < temps) (params : Nat) :
    DeclaredOnce (Local.temp i).name (paramNames params ++ tempNames temps) :=
  List.count_eq_one_of_mem (localNames_nodup params temps)
    (List.mem_append_right _ (List.mem_map_of_mem (List.mem_range.2 hi)))

theorem declaredOnce_param {params i : Nat} (hi : i < params) (temps : Nat) :
    DeclaredOnce (Local.param i).name (paramNames params ++ tempNames temps) :=
  List.count_eq_one_of_mem (localNames_nodup params temps)
    (List.mem_append_left _ (List.mem_map_of_mem (List.mem_range.2 hi)))

section

variable {declared : Declared} {body : List Stmt} {m : Module}

/-- The context of a function of the module has what lowered code uses. -/
theorem LowersProgram.provides (h : LowersProgram declared body m) {f : TextFunc} {params temps : Nat}
    (hparams : f.params = paramNames params) (hlocals : f.locals = tempNames temps) :
    (m.text.context f).Provides declared temps := by
  refine ⟨?_, fun f hf => ?_, h.signatures_nodup, fun id hid => ?_, fun i hi => ?_, rfl⟩
  · rw [TextModule.context, Module.signatures_text]
    exact List.subset_append_left _ _
  · obtain ⟨g, hfind, _, _, _, rfl⟩ := h.lowersFunction hf
    rw [TextModule.context, Module.signatures_text]
    refine List.mem_append_right _ (List.mem_append_left _ ?_)
    exact List.mem_map_of_mem (List.mem_of_find?_eq_some hfind)
  · refine List.count_eq_one_of_mem h.globals_nodup (List.mem_map_of_mem ?_)
    rwa [h.globals_eq]
  · simp only [TextModule.context, hparams, hlocals]
    exact declaredOnce_temp hi params

end

theorem mem_paramScope {params : List Param} {x : Int × Slot} (h : x ∈ paramScope params) :
    ∃ i < params.length, x.2.place = .local (.param i) := by
  obtain ⟨⟨p, i⟩, hp, rfl⟩ := List.mem_map.1 (List.mem_reverse.1 h)
  exact ⟨i, List.snd_lt_of_mem_zipIdx hp, rfl⟩

theorem covered_entry (f : FunctionDecl) {c : Context} (hlabels : c.labels = [])
    (hparams : ∀ i < f.params.length, DeclaredOnce (Local.param i).name c.locals) :
    f.entry.Covered c := by
  refine ⟨fun scope hscope x hx => ?_, fun l _ hl => ?_⟩
  · rcases List.mem_cons.1 hscope with rfl | hscope
    · cases hx
    · obtain rfl := List.mem_singleton.1 hscope
      obtain ⟨i, hi, hplace⟩ := mem_paramScope hx
      rw [hplace]
      exact hparams i hi
  · rw [hlabels] at hl
    cases hl

/-- Parameters are wrapped in place. -/
theorem types_narrowParams {c : Context} (params : List Param)
    (hparams : ∀ i < params.length, DeclaredOnce (Local.param i).name c.locals) :
    Types c (narrowParams params) [] [] := by
  have hdeclared : ∀ x ∈ params.zipIdx, DeclaredOnce (Local.param x.2).name c.locals :=
    fun x hx => hparams x.2 (by simpa using List.snd_lt_of_mem_zipIdx hx)
  unfold narrowParams
  generalize params.zipIdx = xs at hdeclared
  induction xs with
  | nil => exact .nil
  | cons x xs ih =>
    obtain ⟨hx, hxs⟩ := List.forall_mem_cons.1 hdeclared
    obtain ⟨param, i⟩ := x
    have hget : Types c [.localGet (.param i)] [] [.i64] := .single (.localGet hx)
    have hset : Types c [.localSet (.param i)] [.i64] [] := .single (.localSet hx)
    rw [List.flatMap_cons]
    refine Types.append ?_ (ih hxs)
    dsimp only
    split
    · exact .nil
    · exact (hget.append (types_narrowing param.type)).append hset

/-- A statement that is lowered in the course of lowering statements: where it stands, with the
labels around it, and what was declared before it. -/
inductive Visits (declared : Declared) (role : Role) :
    Context → Progress → List Stmt → Context → Progress → Stmt → Prop where
  | here {c : Context} {p : Progress} {s : Stmt} {rest : List Stmt} :
      Visits declared role c p (s :: rest) c p s
  | later {c c' : Context} {p p' q : Progress} {s t : Stmt} {rest : List Stmt}
      {code : List Instr} (hs : lowerStmt declared role s p = .ok (code, p'))
      (h : Visits declared role c p' rest c' q t) : Visits declared role c p (s :: rest) c' q t
  | inBlock {c c' : Context} {p q : Progress} {t : Stmt} {body rest : List Stmt} {loc : Location}
      (h : Visits declared role c { p with scopes := [] :: p.scopes } body c' q t) :
      Visits declared role c p (.block body loc :: rest) c' q t
  | inThen {c c' : Context} {p q : Progress} {cond : Expr} {body t : Stmt} {other : Option Stmt}
      {rest : List Stmt} {loc : Location} (h : Visits declared role c p [body] c' q t) :
      Visits declared role c p (.conditional cond body other loc :: rest) c' q t
  | inElse {c c' : Context} {p p' q : Progress} {cond : Expr} {body other t : Stmt}
      {rest : List Stmt} {loc : Location} {code : List Instr}
      (hbody : lowerStmt declared role body p = .ok (code, p'))
      (h : Visits declared role c p' [other] c' q t) :
      Visits declared role c p (.conditional cond body (some other) loc :: rest) c' q t
  | inLoop {c c' : Context} {p q : Progress} {cond : Expr} {body t : Stmt} {rest : List Stmt}
      {loc : Location}
      (h : Visits declared role (c.inLoop (p.loops + 1)) { p with loops := p.loops + 1 } [body]
        c' q t) :
      Visits declared role c p (.loop cond body loc :: rest) c' q t

/-- An expression that a statement evaluates itself. The test of a loop stands in the loop. -/
inductive Evaluates : Context → Progress → Stmt → Context → Expr → Prop where
  | init {c : Context} {p : Progress} {id : Int} {type : Datatype} {e : Expr} {loc : Location} :
      Evaluates c p (.var id type (some e) loc) c e
  | test {c : Context} {p : Progress} {e : Expr} {body : Stmt} {other : Option Stmt}
      {loc : Location} : Evaluates c p (.conditional e body other loc) c e
  | loop {c : Context} {p : Progress} {e : Expr} {body : Stmt} {loc : Location} :
      Evaluates c p (.loop e body loc) (c.inLoop (p.loops + 1)) e
  | returning {c : Context} {p : Progress} {e : Expr} {loc : Location} :
      Evaluates c p (.returning (some e) loc) c e
  | expr {c : Context} {p : Progress} {e : Expr} {loc : Location} :
      Evaluates c p (.expr e loc) c e

/-- An expression whose value is computed on the way to that of another. -/
inductive Part : Expr → Expr → Prop where
  | whole {e : Expr} : Part e e
  | group {inner x : Expr} {loc : Location} (h : Part inner x) : Part (.group inner loc) x
  | assign {target value x : Expr} {loc : Location} (h : Part value x) :
      Part (.assign target value loc) x
  | unary {op : UnaryOp} {operand x : Expr} {loc : Location} (h : Part operand x) :
      Part (.unary op operand loc) x
  | left {op : BinaryOp} {left right x : Expr} {loc : Location} (h : Part left x) :
      Part (.binary op left right loc) x
  | right {op : BinaryOp} {left right x : Expr} {loc : Location} (h : Part right x) :
      Part (.binary op left right loc) x
  | arg {callee e x : Expr} {args : List Expr} {loc : Location} (he : e ∈ args) (h : Part e x) :
      Part (.call callee args loc) x

section

variable {v : View} {name : Int → String}

/-- The expression with only its parts folded. -/
def foldParts : Expr → Expr
  | .group inner loc => .group inner.fold loc
  | .assign target value loc => .assign target value.fold loc
  | .unary op operand loc => .unary op operand.fold loc
  | .binary op left right loc => .binary op left.fold right.fold loc
  | .call callee args loc => .call callee.fold (Expr.foldAll args) loc
  | e => e

theorem fold_eq_literal_or_foldParts (e : Expr) :
    (∃ value loc, e.fold = .literal value loc) ∨ e.fold = foldParts e := by
  cases e with
  | literal value loc => exact .inl ⟨value, loc, rfl⟩
  | var | assign | call => exact .inr rfl
  | group inner loc => exact (Expr.foldedGroup_cases inner.fold loc).imp (fun ⟨v, h⟩ => ⟨v, loc, h⟩) id
  | unary op operand loc =>
    exact (Expr.foldedUnary_cases op operand.fold loc).imp (fun ⟨v, h⟩ => ⟨v, loc, h⟩) id
  | binary op left right loc =>
    exact (Expr.foldedBinary_cases op left.fold right.fold loc).imp (fun ⟨v, h⟩ => ⟨v, loc, h⟩) id

/-- An expression that is lowered and comes from a source text. -/
structure Compiled (v : View) (name : Int → String) (e : Expr) : Prop where
  origin : ∃ written : Expr, written.Printable name ∧ written.fold = e
  lowered : ∃ code, lowerExpr v e = .ok code

theorem exists_lowerArgs {args : List Expr} {code : List Instr}
    (h : lowerArgs v args = .ok code) : ∀ e ∈ args, ∃ code, lowerExpr v e = .ok code := by
  induction args generalizing code with
  | nil => nofun
  | cons e rest ih =>
    simp only [lowerArgs] at h
    obtain ⟨head, hhead, h⟩ := Except.bind_eq_ok.1 h
    obtain ⟨more, hmore, _⟩ := Except.bind_eq_ok.1 h
    exact List.forall_mem_cons.2 ⟨⟨head, hhead⟩, ih hmore⟩

theorem exists_lowerPrinted {args : List Expr} {code : List Instr}
    (h : lowerPrinted v args = .ok code) : ∀ e ∈ args, ∃ code, lowerExpr v e = .ok code := by
  induction args generalizing code with
  | nil => nofun
  | cons e rest ih =>
    simp only [lowerPrinted] at h
    split at h
    · cases h
    · obtain ⟨head, hhead, h⟩ := Except.bind_eq_ok.1 h
      refine List.forall_mem_cons.2 ⟨⟨head, hhead⟩, ?_⟩
      cases rest with
      | nil => nofun
      | cons e' rest =>
        obtain ⟨more, hmore, _⟩ := Except.bind_eq_ok.1 h
        exact ih hmore

theorem exists_written_of_mem {args : List Expr} (h : Expr.PrintableAll name args) :
    ∀ e ∈ Expr.foldAll args, ∃ written : Expr, written.Printable name ∧ written.fold = e := by
  induction args with
  | nil => nofun
  | cons e rest ih => exact List.forall_mem_cons.2 ⟨⟨e, h.1, rfl⟩, ih h.2⟩

/-- What is no constant after folding has the form in which it is written. -/
theorem Compiled.exists_foldParts {e : Expr} (h : Compiled v name e)
    (hne : ∀ value loc, e ≠ .literal value loc) :
    ∃ written : Expr, written.Printable name ∧ foldParts written = e := by
  obtain ⟨written, hprintable, rfl⟩ := h.origin
  refine ⟨written, hprintable, ?_⟩
  rcases fold_eq_literal_or_foldParts written with ⟨value, loc, hliteral⟩ | hparts
  · exact absurd hliteral (hne value loc)
  · exact hparts.symm

/-- The parts of an expression are lowered with it. -/
theorem Compiled.part {e x : Expr} (hpart : Part e x) (h : Compiled v name e) :
    Compiled v name x := by
  induction hpart with
  | whole => exact h
  | @group inner x loc _ ih =>
    obtain ⟨written, hprintable, hparts⟩ := h.exists_foldParts (by simp)
    cases written <;> cases hparts
    rename_i inner _
    refine ih ⟨⟨inner, hprintable, rfl⟩, ?_⟩
    simpa only [lowerExpr] using h.lowered
  | @assign target value x loc _ ih =>
    obtain ⟨written, hprintable, hparts⟩ := h.exists_foldParts (by simp)
    cases written <;> cases hparts
    obtain ⟨code, hcode⟩ := h.lowered
    refine ih ⟨⟨_, hprintable.2.2, rfl⟩, ?_⟩
    simp only [lowerExpr] at hcode
    split at hcode
    · obtain ⟨slot, _, hcode⟩ := Except.bind_eq_ok.1 hcode
      obtain ⟨inner, hinner, _⟩ := Except.bind_eq_ok.1 hcode
      exact ⟨inner, hinner⟩
    · cases hcode
  | @unary op operand x loc _ ih =>
    obtain ⟨written, hprintable, hparts⟩ := h.exists_foldParts (by simp)
    cases written <;> cases hparts
    rename_i operand _
    obtain ⟨code, hcode⟩ := h.lowered
    refine ih ⟨⟨operand, hprintable.2, rfl⟩, ?_⟩
    cases op <;> simp only [lowerExpr] at hcode <;>
      obtain ⟨inner, hinner, _⟩ := Except.bind_eq_ok.1 hcode <;> exact ⟨inner, hinner⟩
  | @left op left right x loc _ ih =>
    obtain ⟨written, hprintable, hparts⟩ := h.exists_foldParts (by simp)
    cases written <;> cases hparts
    obtain ⟨code, hcode⟩ := h.lowered
    simp only [lowerExpr] at hcode
    obtain ⟨inner, hinner, _⟩ := Except.bind_eq_ok.1 hcode
    exact ih ⟨⟨_, hprintable.2.2.1, rfl⟩, inner, hinner⟩
  | @right op left right x loc _ ih =>
    obtain ⟨written, hprintable, hparts⟩ := h.exists_foldParts (by simp)
    cases written <;> cases hparts
    obtain ⟨code, hcode⟩ := h.lowered
    simp only [lowerExpr] at hcode
    obtain ⟨_, _, hcode⟩ := Except.bind_eq_ok.1 hcode
    obtain ⟨inner, hinner, _⟩ := Except.bind_eq_ok.1 hcode
    exact ih ⟨⟨_, hprintable.2.2.2, rfl⟩, inner, hinner⟩
  | @arg callee e x args loc he _ ih =>
    obtain ⟨written, hprintable, hparts⟩ := h.exists_foldParts (by simp)
    cases written <;> cases hparts
    obtain ⟨code, hcode⟩ := h.lowered
    simp only [lowerExpr] at hcode
    obtain ⟨found, _, hcode⟩ := Except.bind_eq_ok.1 hcode
    refine ih ⟨exists_written_of_mem hprintable.2.2 e he, ?_⟩
    cases found with
    | function f =>
      obtain ⟨inner, hinner, _⟩ := Except.bind_eq_ok.1 hcode
      exact exists_lowerArgs hinner e he
    | print =>
      obtain ⟨inner, hinner, _⟩ := Except.bind_eq_ok.1 hcode
      exact exists_lowerPrinted hinner e he

/-- An expression of a source text that is lowered leaves one word. -/
theorem Compiled.types {c : Context} {locals : Nat} (hprovides : c.Provides v.declared locals)
    (hv : v.Covered c) {e : Expr} (h : Compiled v name e) :
    ∃ code, lowerExpr v e = .ok code ∧ Types c code [] [.i64] := by
  obtain ⟨code, hcode⟩ := h.lowered
  obtain ⟨written, hprintable, rfl⟩ := h.origin
  exact ⟨code, hcode, types_expr hprovides hv (lowers_of_lowerExpr written hcode) hprintable⟩

end

theorem fold_eq_block {s : Stmt} {stmts : List Stmt} {loc : Location}
    (h : s.fold = .block stmts loc) : ∃ inner, s = .block inner loc ∧ Stmt.foldAll inner = stmts := by
  cases s with
  | block inner loc =>
    cases h
    exact ⟨inner, rfl, rfl⟩
  | conditional cond body other loc => cases other <;> cases h
  | function | var | loop | returning | expr => cases h

theorem fold_eq_conditional {s body : Stmt} {cond : Expr} {other : Option Stmt} {loc : Location}
    (h : s.fold = .conditional cond body other loc) :
    ∃ cond₀ body₀ other₀, s = .conditional cond₀ body₀ other₀ loc ∧ cond₀.fold = cond ∧
      body₀.fold = body ∧ other₀.map Stmt.fold = other := by
  cases s with
  | conditional cond₀ body₀ other₀ loc =>
    cases other₀ <;> cases h <;> exact ⟨_, _, _, rfl, rfl, rfl, rfl⟩
  | function | var | block | loop | returning | expr => cases h

theorem fold_eq_loop {s body : Stmt} {cond : Expr} {loc : Location}
    (h : s.fold = .loop cond body loc) :
    ∃ cond₀ body₀, s = .loop cond₀ body₀ loc ∧ cond₀.fold = cond ∧ body₀.fold = body := by
  cases s with
  | loop cond₀ body₀ loc =>
    cases h
    exact ⟨_, _, rfl, rfl, rfl⟩
  | conditional cond body other loc => cases other <;> cases h
  | function | var | block | returning | expr => cases h

theorem fold_eq_var {s : Stmt} {id : Int} {type : Datatype} {e : Expr} {loc : Location}
    (h : s.fold = .var id type (some e) loc) :
    ∃ e₀ : Expr, s = .var id type (some e₀) loc ∧ e₀.fold = e := by
  cases s with
  | var id type init loc =>
    cases init <;> cases h
    exact ⟨_, rfl, rfl⟩
  | conditional cond body other loc => cases other <;> cases h
  | function | block | loop | returning | expr => cases h

theorem fold_eq_returning {s : Stmt} {e : Expr} {loc : Location}
    (h : s.fold = .returning (some e) loc) :
    ∃ e₀ : Expr, s = .returning (some e₀) loc ∧ e₀.fold = e := by
  cases s with
  | returning value loc =>
    cases value <;> cases h
    exact ⟨_, rfl, rfl⟩
  | conditional cond body other loc => cases other <;> cases h
  | function | var | block | loop | expr => cases h

theorem fold_eq_expr {s : Stmt} {e : Expr} {loc : Location} (h : s.fold = .expr e loc) :
    ∃ e₀ : Expr, s = .expr e₀ loc ∧ e₀.fold = e := by
  cases s with
  | expr e₀ loc =>
    cases h
    exact ⟨_, rfl, rfl⟩
  | conditional cond body other loc => cases other <;> cases h
  | function | var | block | loop | returning => cases h

/-- Statements that come from a source text are lowered where their variables are declared. -/
structure Underway (declared : Declared) (role : Role) (body : List Stmt) (name : Int → String)
    (limit : Nat) (c : Context) (p : Progress) (ss : List Stmt) : Prop where
  provides : c.Provides declared limit
  covered : p.Covered c
  scopes_ne : p.scopes ≠ []
  origin : ∃ written, Stmt.foldAll written = ss ∧ (∀ s ∈ written, s.Printable name) ∧
    (p.IsTop role → ∀ s ∈ written, s.isDeclaration = true → s ∈ body)
  lowered : ∃ code p', lowerStmts declared role ss p = .ok (code, p') ∧ p'.locals ≤ limit

section

variable {declared : Declared} {role : Role} {body : List Stmt} {name : Int → String}
  {limit : Nat} {c : Context} {p : Progress} {module : Module}

theorem lowerExpr_of_expr {e : Expr} {code : List Instr} {p' : Progress}
    (h : Lower.expr declared role e p = .ok (code, p')) :
    ∃ code, lowerExpr (p.view declared role) e = .ok code := by
  obtain ⟨v, p', hview, h⟩ := Lower.bind_eq_ok.1 h
  cases hview
  obtain ⟨code, hcode, _⟩ := Except.bind_eq_ok.1 h
  exact ⟨code, hcode⟩

theorem lowerStmts_cons {s : Stmt} {rest : List Stmt} {code : List Instr} {p'' : Progress}
    (h : lowerStmts declared role (s :: rest) p = .ok (code, p'')) :
    ∃ head p' more, lowerStmt declared role s p = .ok (head, p') ∧
      lowerStmts declared role rest p' = .ok (more, p'') := by
  simp only [lowerStmts] at h
  obtain ⟨head, p', hhead, h⟩ := Lower.bind_eq_ok.1 h
  obtain ⟨more, p₂, hrest, h⟩ := Lower.bind_eq_ok.1 h
  cases h
  exact ⟨head, p', more, hhead, hrest⟩

theorem lowerStmts_singleton {s : Stmt} {code : List Instr} {p' : Progress}
    (h : lowerStmt declared role s p = .ok (code, p')) :
    lowerStmts declared role [s] p = .ok (code, p') := by
  simp only [lowerStmts]
  refine Lower.bind_eq_ok.2 ⟨code, p', h, ?_⟩
  refine Lower.bind_eq_ok.2 ⟨[], p', rfl, ?_⟩
  rw [List.append_nil]
  rfl

namespace Underway

variable {s : Stmt} {rest : List Stmt}

theorem head (h : Underway declared role body name limit c p (s :: rest)) :
    Underway declared role body name limit c p [s] := by
  obtain ⟨written, hfold, hprintable, hmem⟩ := h.origin
  obtain ⟨code, p'', hcode, hlimit⟩ := h.lowered
  cases written with
  | nil => cases hfold
  | cons first others =>
    cases hfold
    obtain ⟨head, p', more, hhead, hmore⟩ := lowerStmts_cons hcode
    have hfirst := lowers_of_lowerStmt first h.scopes_ne hhead
    have hothers := lowers_of_lowerStmts others (hfirst.grows.scopes_ne h.scopes_ne) hmore
    refine ⟨h.provides, h.covered, h.scopes_ne, ⟨[first], rfl, ?_, fun htop t ht => ?_⟩,
      head, p', lowerStmts_singleton hhead, Nat.le_trans hothers.grows.locals_le hlimit⟩
    · exact List.forall_mem_singleton.2 (hprintable first List.mem_cons_self)
    · obtain rfl := List.mem_singleton.1 ht
      exact hmem htop t List.mem_cons_self

/-- A statement on the way: as it was written, and how it is lowered. -/
theorem single (h : Underway declared role body name limit c p [s]) :
    ∃ written : Stmt, written.fold = s ∧ written.Printable name ∧
      (p.IsTop role → written.isDeclaration = true → written ∈ body) ∧
      ∃ code p', lowerStmt declared role s p = .ok (code, p') ∧ p'.locals ≤ limit := by
  obtain ⟨written, hfold, hprintable, hmem⟩ := h.origin
  obtain ⟨code, p'', hcode, hlimit⟩ := h.lowered
  cases written with
  | nil => cases hfold
  | cons first others =>
    cases others with
    | cons second others => cases hfold
    | nil =>
      cases hfold
      obtain ⟨head, p', more, hhead, hmore⟩ := lowerStmts_cons hcode
      cases hmore
      exact ⟨first, rfl, hprintable first List.mem_cons_self,
        fun htop => hmem htop first List.mem_cons_self, head, _, hhead, hlimit⟩

/-- A statement on the way leaves the stack as it was. -/
theorem types (hprogram : LowersProgram declared body module)
    (h : Underway declared role body name limit c p [s]) :
    ∃ code p', lowerStmt declared role s p = .ok (code, p') ∧ Types c code [] [] ∧ p'.Covered c := by
  obtain ⟨written, rfl, hprintable, hmem, code, p', hcode, hlimit⟩ := h.single
  have hlowers := lowers_of_lowerStmt written h.scopes_ne hcode
  exact ⟨code, p', hcode, types_stmt hprogram h.provides hlowers hprintable hmem h.scopes_ne hlimit
    h.covered⟩

/-- What is lowered after a statement. -/
theorem tail (hprogram : LowersProgram declared body module)
    (h : Underway declared role body name limit c p (s :: rest)) {code : List Instr} {p' : Progress}
    (hs : lowerStmt declared role s p = .ok (code, p')) :
    Underway declared role body name limit c p' rest := by
  obtain ⟨_, _, hcode, _, hcovered⟩ := h.head.types hprogram
  rw [hs] at hcode
  cases hcode
  obtain ⟨written, hfold, hprintable, hmem⟩ := h.origin
  obtain ⟨code, p'', hcode, hlimit⟩ := h.lowered
  cases written with
  | nil => cases hfold
  | cons first others =>
    cases hfold
    obtain ⟨head, p₁, more, hhead, hmore⟩ := lowerStmts_cons hcode
    rw [hs] at hhead
    cases hhead
    have hgrows := (lowers_of_lowerStmt first h.scopes_ne hs).grows
    have htop := hgrows.isTop fun (_ : role = .start) => h.scopes_ne
    exact ⟨h.provides, hcovered, hgrows.scopes_ne h.scopes_ne,
      ⟨others, rfl, fun t ht => hprintable t (List.mem_cons_of_mem _ ht),
        fun h' t ht => hmem (htop h') t (List.mem_cons_of_mem _ ht)⟩, more, p'', hmore, hlimit⟩

/-- The statements of a block. -/
theorem inBlock {stmts : List Stmt} {loc : Location}
    (h : Underway declared role body name limit c p [.block stmts loc]) :
    Underway declared role body name limit c { p with scopes := [] :: p.scopes } stmts := by
  obtain ⟨written, hfold, hprintable, _, code, p', hcode, hlimit⟩ := h.single
  obtain ⟨inner, rfl, rfl⟩ := fold_eq_block hfold
  simp only [lowerStmt] at hcode
  obtain ⟨_, p₁, hpush, hcode⟩ := Lower.bind_eq_ok.1 hcode
  cases hpush
  obtain ⟨code, p₂, hbody, hcode⟩ := Lower.bind_eq_ok.1 hcode
  cases hcode
  have hnot := not_isTop_inner [] fun (_ : role = .start) => h.scopes_ne
  exact ⟨h.provides, h.covered.push, List.cons_ne_nil _ _, ⟨inner, rfl, Stmt.PrintableAll.of_mem hprintable,
    fun htop => absurd htop hnot⟩, code, p₂, hbody, hlimit⟩

/-- A branch or the body of a loop, which is no declaration. -/
theorem of_branch {written : Stmt} (hprintable : written.Printable name)
    (hnot : written.isDeclaration = false) (hprovides : c.Provides declared limit)
    (hcovered : p.Covered c) (hne : p.scopes ≠ []) {code : List Instr} {p' : Progress}
    (hcode : lowerStmt declared role written.fold p = .ok (code, p')) (hlimit : p'.locals ≤ limit) :
    Underway declared role body name limit c p [written.fold] := by
  refine ⟨hprovides, hcovered, hne, ⟨[written], rfl, ?_, fun _ t ht hdecl => ?_⟩, code, p',
    lowerStmts_singleton hcode, hlimit⟩
  · exact List.forall_mem_singleton.2 hprintable
  · obtain rfl := List.mem_singleton.1 ht
    rw [hnot] at hdecl
    cases hdecl

theorem inThen {cond : Expr} {then' : Stmt} {other : Option Stmt} {loc : Location}
    (h : Underway declared role body name limit c p [.conditional cond then' other loc]) :
    Underway declared role body name limit c p [then'] := by
  obtain ⟨written, hfold, hprintable, _, code, p', hcode, hlimit⟩ := h.single
  obtain ⟨cond, then', other, rfl, rfl, rfl, rfl⟩ := fold_eq_conditional hfold
  cases other with
  | none =>
    simp only [Option.map_none, lowerStmt] at hcode
    obtain ⟨test, p₁, htest, hcode⟩ := Lower.bind_eq_ok.1 hcode
    obtain ⟨rfl, _⟩ := Lower.expr_eq_ok htest
    obtain ⟨inner, p₂, hbody, hcode⟩ := Lower.bind_eq_ok.1 hcode
    cases hcode
    exact of_branch hprintable.2.2 hprintable.2.1 h.provides h.covered h.scopes_ne hbody hlimit
  | some other =>
    obtain ⟨_, ⟨hnot, hprintable⟩, _⟩ := hprintable
    simp only [Option.map_some, lowerStmt] at hcode
    obtain ⟨test, p₁, htest, hcode⟩ := Lower.bind_eq_ok.1 hcode
    obtain ⟨rfl, _⟩ := Lower.expr_eq_ok htest
    obtain ⟨inner, p₂, hbody, hcode⟩ := Lower.bind_eq_ok.1 hcode
    obtain ⟨inner', p₃, hother, hcode⟩ := Lower.bind_eq_ok.1 hcode
    cases hcode
    have hgrows := (lowers_of_lowerStmt then' h.scopes_ne hbody).grows
    have hlowers := lowers_of_lowerStmt other (hgrows.scopes_ne h.scopes_ne) hother
    exact of_branch hprintable hnot h.provides h.covered h.scopes_ne hbody
      (Nat.le_trans hlowers.grows.locals_le hlimit)

theorem inElse (hprogram : LowersProgram declared body module) {cond : Expr}
    {then' other : Stmt} {loc : Location}
    (h : Underway declared role body name limit c p [.conditional cond then' (some other) loc])
    {code : List Instr} {p' : Progress} (hthen : lowerStmt declared role then' p = .ok (code, p')) :
    Underway declared role body name limit c p' [other] := by
  obtain ⟨_, _, hcode, _, hcovered⟩ := h.inThen.types hprogram
  rw [hthen] at hcode
  cases hcode
  obtain ⟨written, hfold, hprintable, _, code, p'', hcode, hlimit⟩ := h.single
  obtain ⟨cond, then', other, rfl, rfl, rfl, hother⟩ := fold_eq_conditional hfold
  obtain ⟨other, rfl, rfl⟩ := Option.map_eq_some_iff.1 hother
  obtain ⟨_, _, _, hnot, hprintable⟩ := hprintable
  simp only [lowerStmt] at hcode
  obtain ⟨test, p₁, htest, hcode⟩ := Lower.bind_eq_ok.1 hcode
  obtain ⟨rfl, _⟩ := Lower.expr_eq_ok htest
  obtain ⟨inner, p₂, hbody, hcode⟩ := Lower.bind_eq_ok.1 hcode
  rw [hthen] at hbody
  cases hbody
  obtain ⟨inner', p₃, hother, hcode⟩ := Lower.bind_eq_ok.1 hcode
  cases hcode
  have hgrows := (lowers_of_lowerStmt then' h.scopes_ne hthen).grows
  exact of_branch hprintable hnot h.provides hcovered (hgrows.scopes_ne h.scopes_ne) hother hlimit

theorem inLoop {cond : Expr} {stmt : Stmt} {loc : Location}
    (h : Underway declared role body name limit c p [.loop cond stmt loc]) :
    Underway declared role body name limit (c.inLoop (p.loops + 1)) { p with loops := p.loops + 1 }
      [stmt] := by
  obtain ⟨written, hfold, hprintable, _, code, p', hcode, hlimit⟩ := h.single
  obtain ⟨cond, stmt, rfl, rfl, rfl⟩ := fold_eq_loop hfold
  simp only [lowerStmt] at hcode
  obtain ⟨n, p₁, hn, hcode⟩ := Lower.bind_eq_ok.1 hcode
  cases hn
  obtain ⟨test, p₂, htest, hcode⟩ := Lower.bind_eq_ok.1 hcode
  obtain ⟨rfl, _⟩ := Lower.expr_eq_ok htest
  obtain ⟨inner, p₃, hbody, hcode⟩ := Lower.bind_eq_ok.1 hcode
  cases hcode
  exact of_branch hprintable.2.2 hprintable.2.1 (h.provides.inLoop _) h.covered.enterLoop
    h.scopes_ne hbody hlimit

/-- Whatever is visited is on the way. -/
theorem visits (hprogram : LowersProgram declared body module) {c' : Context} {q : Progress}
    {ss : List Stmt} {t : Stmt} (hvisits : Visits declared role c p ss c' q t)
    (h : Underway declared role body name limit c p ss) :
    Underway declared role body name limit c' q [t] := by
  induction hvisits with
  | here => exact h.head
  | later hs _ ih => exact ih (h.tail hprogram hs)
  | inBlock _ ih => exact ih h.head.inBlock
  | inThen _ ih => exact ih h.head.inThen
  | inElse hbody _ ih => exact ih (h.head.inElse hprogram hbody)
  | inLoop _ ih => exact ih h.head.inLoop

/-- What a statement on the way evaluates is lowered where its variables are declared. -/
theorem evaluates {c' : Context} {e : Expr} (he : Evaluates c p s c' e)
    (h : Underway declared role body name limit c p [s]) :
    c'.Provides declared limit ∧ (p.view declared role).Covered c' ∧
      Compiled (p.view declared role) name e := by
  have hview := h.covered.view h.provides role
  obtain ⟨written, hfold, hprintable, _, code, p', hcode, _⟩ := h.single
  cases he with
  | init =>
    obtain ⟨e, rfl, rfl⟩ := fold_eq_var hfold
    simp only [lowerStmt] at hcode
    obtain ⟨_, _, hvalue, _⟩ := Lower.bind_eq_ok.1 hcode
    exact ⟨h.provides, hview, ⟨e, hprintable.2.2 e rfl, rfl⟩, lowerExpr_of_expr hvalue⟩
  | test =>
    obtain ⟨cond, then', other, rfl, rfl, rfl, rfl⟩ := fold_eq_conditional hfold
    cases other with
    | none =>
      simp only [Option.map_none, lowerStmt] at hcode
      obtain ⟨_, _, htest, _⟩ := Lower.bind_eq_ok.1 hcode
      exact ⟨h.provides, hview, ⟨cond, hprintable.1, rfl⟩, lowerExpr_of_expr htest⟩
    | some other =>
      simp only [Option.map_some, lowerStmt] at hcode
      obtain ⟨_, _, htest, _⟩ := Lower.bind_eq_ok.1 hcode
      exact ⟨h.provides, hview, ⟨cond, hprintable.1, rfl⟩, lowerExpr_of_expr htest⟩
  | loop =>
    obtain ⟨cond, stmt, rfl, rfl, rfl⟩ := fold_eq_loop hfold
    simp only [lowerStmt] at hcode
    obtain ⟨n, p₁, hn, hcode⟩ := Lower.bind_eq_ok.1 hcode
    cases hn
    obtain ⟨_, _, htest, _⟩ := Lower.bind_eq_ok.1 hcode
    exact ⟨h.provides.inLoop _, hview, ⟨cond, hprintable.1, rfl⟩,
      lowerExpr_of_expr (p := { p with loops := p.loops + 1 }) htest⟩
  | returning =>
    obtain ⟨e, rfl, rfl⟩ := fold_eq_returning hfold
    simp only [lowerStmt] at hcode
    obtain ⟨_, _, hvalue, _⟩ := Lower.bind_eq_ok.1 hcode
    exact ⟨h.provides, hview, ⟨e, hprintable e rfl, rfl⟩, lowerExpr_of_expr hvalue⟩
  | expr =>
    obtain ⟨e, rfl, rfl⟩ := fold_eq_expr hfold
    simp only [lowerStmt] at hcode
    obtain ⟨_, _, hvalue, _⟩ := Lower.bind_eq_ok.1 hcode
    exact ⟨h.provides, hview, ⟨e, hprintable, rfl⟩, lowerExpr_of_expr hvalue⟩

end Underway

/-- All that is lowered on the way has the type it should have: a statement leaves the stack as it
was, and an expression leaves one word more. -/
def TypedThroughout (declared : Declared) (role : Role) (c : Context) (p : Progress)
    (ss : List Stmt) : Prop :=
  ∀ c' q t, Visits declared role c p ss c' q t →
    (∃ code q', lowerStmt declared role t q = .ok (code, q') ∧
      HasType c' (Instr.sexpsAll code) [] []) ∧
    ∀ c'' e x, Evaluates c' q t c'' e → Part e x →
      ∃ code, lowerExpr (q.view declared role) x = .ok code ∧
        HasType c'' (Instr.sexpsAll code) [] [.i64]

theorem Underway.typedThroughout (hprogram : LowersProgram declared body module) {ss : List Stmt}
    (h : Underway declared role body name limit c p ss) :
    TypedThroughout declared role c p ss := by
  intro c' q t hvisits
  have hvisited := h.visits hprogram hvisits
  obtain ⟨code, q', hcode, htypes, _⟩ := hvisited.types hprogram
  refine ⟨⟨code, q', hcode, htypes⟩, fun c'' e x he hpart => ?_⟩
  obtain ⟨hprovides, hview, hcompiled⟩ := hvisited.evaluates he
  exact (hcompiled.part hpart).types hprovides hview

end

section

variable {declared : Declared} {body : List Stmt} {m : Module} {name : Int → String}

/-- The statements of a function are on the way from its beginning. -/
theorem LowersProgram.underway_function (h : LowersProgram declared body m)
    (hprintable : ∀ s ∈ body, s.Printable name) {f : FunctionDecl} (hf : f ∈ declared.functions)
    {g : Func} (hg : LowersFunction declared f g) :
    Underway declared (.function f.result) body name g.locals (m.text.context g.text) f.entry
      f.body := by
  obtain ⟨code, p, hcode, rfl⟩ := hg
  rw [h.functions_eq] at hf
  obtain ⟨stmts, bodyLoc, loc, hmem, hfold⟩ := mem_of_mem_declaredFunction? hf
  obtain ⟨_, _, _, hbody⟩ := hprintable _ hmem
  refine ⟨h.provides rfl rfl, covered_entry f rfl fun i hi => ?_, nofun,
    ⟨stmts, hfold, hbody.of_mem, fun htop => absurd htop.1 nofun⟩, code, p, hcode, Nat.le_refl _⟩
  exact declaredOnce_param hi p.locals

theorem LowersProgram.underway_start (h : LowersProgram declared body m)
    (hprintable : ∀ s ∈ body, s.Printable name) :
    Underway declared .start body name m.startLocals (m.text.context m.startText) .start
      (Stmt.foldAll body) := by
  obtain ⟨code, p, hcode, hlocals, _⟩ := h.start_eq
  have hcovered : Progress.start.Covered (m.text.context m.startText) := by
    refine ⟨fun scope hscope x hx => ?_, nofun⟩
    obtain rfl := List.mem_singleton.1 hscope
    cases hx
  have hparams : m.startText.params = paramNames 0 := rfl
  exact ⟨h.provides hparams rfl, hcovered, nofun,
    ⟨body, rfl, hprintable, fun _ s hs _ => hs⟩, code, p, hcode, Nat.le_of_eq hlocals.symm⟩

theorem Underway.types_all {role : Role} {limit : Nat} {c : Context} {p : Progress} {ss : List Stmt}
    (hprogram : LowersProgram declared body m)
    (h : Underway declared role body name limit c p ss) {code : List Instr} {p' : Progress}
    (hcode : lowerStmts declared role ss p = .ok (code, p')) : Types c code [] [] := by
  obtain ⟨_, _, hlowered, hlimit⟩ := h.lowered
  rw [hcode] at hlowered
  cases hlowered
  obtain ⟨written, rfl, hprintable, hmem⟩ := h.origin
  have hlowers := lowers_of_lowerStmts written h.scopes_ne hcode
  exact (types_stmts hprogram h.provides hlowers hprintable hmem h.scopes_ne hlimit h.covered).1

/-- The body of a function leaves one word. -/
theorem LowersProgram.types_function (h : LowersProgram declared body m)
    (hprintable : ∀ s ∈ body, s.Printable name) {f : FunctionDecl} (hf : f ∈ declared.functions)
    {g : Func} (hg : LowersFunction declared f g) :
    Types (m.text.context g.text) g.body [] [.i64] := by
  have hunderway := h.underway_function hprintable hf hg
  obtain ⟨code, p, hcode, rfl⟩ := hg
  have hparams := types_narrowParams (c := m.text.context (Func.text
    ⟨f.id, f.params.length, p.locals, narrowParams f.params ++ code ++ [.const 0]⟩)) f.params
    fun i hi => declaredOnce_param hi p.locals
  exact (hparams.append (hunderway.types_all h hcode)).append (.const 0 [])

theorem LowersProgram.types_start (h : LowersProgram declared body m)
    (hprintable : ∀ s ∈ body, s.Printable name) :
    Types (m.text.context m.startText) m.startBody [] [.i64] := by
  obtain ⟨code, p, hcode, _, hbody⟩ := h.start_eq
  rw [hbody]
  exact ((h.underway_start hprintable).types_all h hcode).append (.const 0 [])

theorem mem_of_forall₂ {α β : Type} {r : α → β → Prop} {as : List α} {bs : List β}
    (h : List.Forall₂ r as bs) {b : β} (hb : b ∈ bs) : ∃ a ∈ as, r a b := by
  induction h with
  | nil => cases hb
  | cons hhead _ ih =>
    rcases List.mem_cons.1 hb with rfl | hb
    · exact ⟨_, List.mem_cons_self, hhead⟩
    · obtain ⟨a, ha, hr⟩ := ih hb
      exact ⟨a, List.mem_cons_of_mem _ ha, hr⟩

/-- The module that a program is lowered to is valid. -/
theorem LowersProgram.valid (h : LowersProgram declared body m)
    (hprintable : ∀ s ∈ body, s.Printable name) : m.text.Valid := by
  refine ⟨h.signatures_nodup, h.globals_nodup, ?_, ?_, ?_, ?_, ?_⟩
  · have hnone : m.funcs.filterMap (fun f => f.text.exported) = [] := by
      simp [Func.text]
    simp [Module.text, List.filterMap_append, List.filterMap_map, hnone, Module.startText]
  · intro x hx
    rcases List.mem_append.1 hx with hx | hx
    · simp only [Module.signatures_text, List.map_append, List.map_map, List.mem_append,
        List.map_cons, List.map_nil, List.mem_singleton] at hx
      rcases hx with hx | hx | rfl
      · have hhosts : ∀ x ∈ hostImports.map (·.name), TextModule.IsIdentifier x := by decide
        exact hhosts x hx
      · obtain ⟨f, _, rfl⟩ := List.mem_map.1 hx
        exact isIdentifier_func (.user f.id)
      · decide
    · obtain ⟨id, _, rfl⟩ := List.mem_map.1 hx
      exact isIdentifier_global id
  · intro f hf
    rcases List.mem_append.1 hf with hf | hf
    · obtain ⟨g, _, rfl⟩ := List.mem_map.1 hf
      exact localNames_nodup g.params g.locals
    · obtain rfl := List.mem_singleton.1 hf
      exact localNames_nodup 0 m.startLocals
  · have hname : ∀ params temps, ∀ x ∈ paramNames params ++ tempNames temps,
        TextModule.IsIdentifier x := by
      intro params temps x hx
      rcases List.mem_append.1 hx with hx | hx <;> obtain ⟨i, _, rfl⟩ := List.mem_map.1 hx
      · exact isIdentifier_local (.param i)
      · exact isIdentifier_local (.temp i)
    intro f hf
    rcases List.mem_append.1 hf with hf | hf
    · obtain ⟨g, _, rfl⟩ := List.mem_map.1 hf
      exact hname g.params g.locals
    · obtain rfl := List.mem_singleton.1 hf
      exact hname 0 m.startLocals
  · intro f hf
    rcases List.mem_append.1 hf with hf | hf
    · obtain ⟨g, hg, rfl⟩ := List.mem_map.1 hf
      obtain ⟨f, hf, hlowers⟩ := mem_of_forall₂ h.funcs hg
      exact h.types_function hprintable hf hlowers
    · obtain rfl := List.mem_singleton.1 hf
      exact h.types_start hprintable

end

end Wat

namespace Program

open Wat

/-- A program that was read without a diagnostic and can be lowered is given as the text of a valid
module, with parentheses that match. In each of its functions, the program's own statements among
them, every statement leaves the stack as it was and every expression leaves one wide word. -/
theorem valid_of_toWat {file : String} {source : Source} {table : SymbolTable}
    (hclean : (Program.parse file source table).report = []) {text : String}
    (hwat : (Program.parse file source table).program.toWat (Program.parse file source table).table
      = .ok text) :
    Balanced text ∧ ∃ (declared : Declared) (m : Module),
      Sexp.read text = some [m.text.sexp] ∧ m.text.Valid ∧
      declared.table = (Program.parse file source table).table ∧
      collectFunctions declared.table [] (Program.parse file source table).program.fold.body =
        .ok declared.functions ∧
      declared.globals = collectGlobals [] (Program.parse file source table).program.fold.body ∧
      List.Forall₂ (fun f g => lowerFunction declared f = .ok g ∧
        TypedThroughout declared (.function f.result) (m.text.context g.text) f.entry f.body)
        declared.functions m.funcs ∧
      TypedThroughout declared .start (m.text.context m.startText) .start
        (Program.parse file source table).program.fold.body := by
  obtain ⟨m, hmodule, htext⟩ := Except.bind_eq_ok.1 hwat
  cases htext
  obtain ⟨functions, hfunctions, hprogram⟩ := lowersProgram_of_lowerProgram hmodule
  have hprintable := TokenStream.printable_of_clean hclean
  have hfuncs := List.forall₂_iff_get.1 hprogram.funcs
  refine ⟨Sexp.balanced_of_read m.read_render, _, m, m.read_render, hprogram.valid hprintable, rfl,
    hfunctions, rfl, List.forall₂_iff_get.2 ⟨hfuncs.1, fun i hi hi' => ?_⟩, ?_⟩
  · have hlowers := hfuncs.2 i hi hi'
    have hf : functions.get ⟨i, hi⟩ ∈ functions := List.get_mem _ _
    exact ⟨lowerFunction_eq_ok_iff.2 hlowers,
      (hprogram.underway_function hprintable hf hlowers).typedThroughout hprogram⟩
  · exact (hprogram.underway_start hprintable).typedThroughout hprogram

/-- A loop inside a loop, a variable that hides another, and code after a return. -/
theorem valid_of_toWat_nested :
    let parsed := Program.parse "m" (Source.ofString
      "fn f(int8 n): int8 { while (n) { while (1) { int8 n = 2; return n; n = 3; } } } f(4);") .empty
    parsed.report = [] ∧ ∃ text, parsed.program.toWat parsed.table = .ok text ∧ Balanced text ∧
      ∃ m : Module, Sexp.read text = some [m.text.sexp] ∧ m.text.Valid := by
  intro parsed
  obtain ⟨hclean, hlowered⟩ :
      parsed.report = [] ∧ (parsed.program.toWat parsed.table).isOk = true := by
    decide +kernel
  obtain ⟨text, hwat⟩ : ∃ text, parsed.program.toWat parsed.table = .ok text := by
    generalize parsed.program.toWat parsed.table = result at hlowered
    cases result with
    | ok text => exact ⟨text, rfl⟩
    | error e => cases hlowered
  obtain ⟨hbalanced, _, m, hread, hvalid, _⟩ := valid_of_toWat hclean hwat
  exact ⟨hclean, text, hwat, hbalanced, m, hread, hvalid⟩

end Program

end Ember
