import Ember.Proofs.Wat.Lowering
import Mathlib.Data.List.Forall2
import Mathlib.Data.List.Nodup

namespace Ember

namespace Program

/-- The functions that a program declares. -/
def functionIds (p : Program) : List Int :=
  p.body.filterMap fun
    | .function id _ _ _ _ _ => some id
    | _ => none

/-- The variables that a program declares outside every block and function. -/
def variableIds (p : Program) : List Int :=
  p.body.filterMap fun
    | .var id _ _ _ => some id
    | _ => none

end Program

namespace Wat

/-- The function that a statement declares. -/
def declaredFunction? : Stmt → Option FunctionDecl
  | .function id params result body _ _ => some ⟨id, params, result, body⟩
  | _ => none

/-- The variable that a statement declares, and its type. -/
def declaredVariable? : Stmt → Option (Int × Datatype)
  | .var id type _ _ => some (id, type)
  | _ => none

theorem declaredVariable?_fold (s : Stmt) : declaredVariable? s.fold = declaredVariable? s := by
  cases s with
  | conditional cond body other loc => cases other <;> rfl
  | _ => rfl

/-- A program has a lowering only if its functions have different names. -/
theorem collectFunctions_eq_ok {table : SymbolTable} {body : List Stmt}
    {found functions : List FunctionDecl} (hfound : (found.map (·.id)).Nodup)
    (h : collectFunctions table found body = .ok functions) :
    functions = found ++ body.filterMap declaredFunction? ∧ (functions.map (·.id)).Nodup := by
  induction body generalizing found with
  | nil =>
    cases h
    exact ⟨(List.append_nil _).symm, hfound⟩
  | cons s rest ih =>
    cases s with
    | function id params result body bodyLoc loc =>
      simp only [collectFunctions] at h
      split at h
      · obtain ⟨name, _, h⟩ := Except.bind_eq_ok.1 h
        cases h
      · rename_i hnew
        have hnext : ((found ++ [(⟨id, params, result, body⟩ : FunctionDecl)]).map (·.id)).Nodup := by
          simp only [List.any_eq_true, beq_iff_eq, not_exists, not_and] at hnew
          rw [List.map_append, List.nodup_append]
          refine ⟨hfound, List.pairwise_singleton _ _, ?_⟩
          intro a ha b hb hab
          obtain ⟨f, hf, rfl⟩ := List.mem_map.1 ha
          exact hnew f hf (hab.trans (List.mem_singleton.1 hb))
        obtain ⟨heq, hnodup⟩ := ih hnext h
        exact ⟨heq.trans (List.append_assoc _ _ _), hnodup⟩
    | var | block | conditional | loop | returning | expr => exact ih hfound h

theorem mem_insertGlobal {id : Int} {type : Datatype} {found : List (Int × Datatype)}
    {x : Int × Datatype} (h : x ∈ insertGlobal id type found) : x = (id, type) ∨ x ∈ found := by
  induction found with
  | nil => exact .inl (List.mem_singleton.1 h)
  | cons y rest ih =>
    unfold insertGlobal at h
    split at h
    · exact List.mem_cons.1 h
    · split at h
      · exact (List.mem_cons.1 h).imp_right (List.mem_cons_of_mem _)
      · rcases List.mem_cons.1 h with rfl | h
        · exact .inr List.mem_cons_self
        · exact (ih h).imp_right (List.mem_cons_of_mem _)

theorem mem_map_fst_insertGlobal (id : Int) (type : Datatype) (found : List (Int × Datatype)) :
    id ∈ (insertGlobal id type found).map (·.1) := by
  induction found with
  | nil => exact List.mem_cons_self
  | cons y rest ih =>
    unfold insertGlobal
    split
    · exact List.mem_cons_self
    · split
      · exact List.mem_cons_self
      · exact List.mem_cons_of_mem _ ih

theorem map_fst_subset_insertGlobal (id : Int) (type : Datatype)
    (found : List (Int × Datatype)) :
    found.map (·.1) ⊆ (insertGlobal id type found).map (·.1) := by
  induction found with
  | nil => exact List.nil_subset _
  | cons y rest ih =>
    unfold insertGlobal
    split
    · exact List.subset_cons_self _ _
    · split
      · rename_i hid
        simp only [List.map_cons, hid]
        exact List.Subset.refl _
      · exact List.cons_subset_cons _ ih

/-- Globals stay in the order of their ids. -/
theorem pairwise_insertGlobal (id : Int) (type : Datatype) {found : List (Int × Datatype)}
    (h : (found.map (·.1)).Pairwise (· < ·)) :
    ((insertGlobal id type found).map (·.1)).Pairwise (· < ·) := by
  induction found with
  | nil => exact List.pairwise_singleton _ _
  | cons y rest ih =>
    obtain ⟨hy, hrest⟩ := List.pairwise_cons.1 h
    unfold insertGlobal
    split
    · rename_i hlt
      refine List.pairwise_cons.2 ⟨fun z hz => ?_, h⟩
      rcases List.mem_cons.1 hz with rfl | hz
      · exact hlt
      · exact Int.lt_trans hlt (hy z hz)
    · split
      · rename_i hid
        exact List.pairwise_cons.2 ⟨hid ▸ hy, hrest⟩
      · rename_i hge hne
        refine List.pairwise_cons.2 ⟨fun z hz => ?_, ih hrest⟩
        obtain ⟨x, hx, rfl⟩ := List.mem_map.1 hz
        rcases mem_insertGlobal hx with rfl | hx
        · exact Int.lt_iff_le_and_ne.2 ⟨Int.not_lt.1 hge, Ne.symm hne⟩
        · exact hy _ (List.mem_map_of_mem hx)

theorem collectGlobals_cons (found : List (Int × Datatype)) (s : Stmt) (rest : List Stmt) :
    collectGlobals found (s :: rest) =
      collectGlobals
        (match declaredVariable? s with
          | some (id, type) => insertGlobal id type found
          | none => found) rest := by
  cases s <;> rfl

/-- The globals are the variables that the statements declare: each has one of the types that
are declared for it, and none is missing. -/
structure GlobalsOf (found : List (Int × Datatype)) (seen : List (Int × Datatype)) :
    Prop where
  mem : ∀ x ∈ found, x ∈ seen
  ids : seen.map (·.1) ⊆ found.map (·.1)
  sorted : (found.map (·.1)).Pairwise (· < ·)

theorem globalsOf_collectGlobals {found : List (Int × Datatype)} {body : List Stmt}
    {seen : List (Int × Datatype)} (h : GlobalsOf found seen) :
    GlobalsOf (collectGlobals found body) (seen ++ body.filterMap declaredVariable?) := by
  induction body generalizing found seen with
  | nil =>
    rw [List.filterMap_nil, List.append_nil]
    exact h
  | cons s rest ih =>
    rw [collectGlobals_cons]
    cases hs : declaredVariable? s with
    | none =>
      rw [List.filterMap_cons_none hs]
      exact ih h
    | some x =>
      obtain ⟨id, type⟩ := x
      rw [List.filterMap_cons_some hs, ← List.singleton_append, ← List.append_assoc]
      refine ih ⟨fun x hx => ?_, ?_, pairwise_insertGlobal id type h.sorted⟩
      · rcases mem_insertGlobal hx with rfl | hx
        · exact List.mem_append_right _ List.mem_cons_self
        · exact List.mem_append_left _ (h.mem x hx)
      · rw [List.map_append]
        refine List.append_subset.2 ⟨?_, ?_⟩
        · exact fun i hi => map_fst_subset_insertGlobal id type found (h.ids hi)
        · exact List.cons_subset.2 ⟨mem_map_fst_insertGlobal id type found, List.nil_subset _⟩

end Wat

theorem Stmt.foldAll_eq_map (ss : List Stmt) : Stmt.foldAll ss = ss.map Stmt.fold := by
  induction ss with
  | nil => rfl
  | cons s rest ih => rw [Stmt.foldAll, ih, List.map_cons]

namespace Wat

theorem filterMap_declaredVariable?_foldAll (body : List Stmt) :
    (Stmt.foldAll body).filterMap declaredVariable? = body.filterMap declaredVariable? := by
  rw [Stmt.foldAll_eq_map, List.filterMap_map]
  exact congrArg (body.filterMap ·) (funext declaredVariable?_fold)

/-- A function is that of a statement. -/
theorem mem_of_mem_declaredFunction? {body : List Stmt} {f : FunctionDecl}
    (h : f ∈ (Stmt.foldAll body).filterMap declaredFunction?) :
    ∃ stmts bodyLoc loc, .function f.id f.params f.result stmts bodyLoc loc ∈ body ∧
      Stmt.foldAll stmts = f.body := by
  rw [Stmt.foldAll_eq_map, List.filterMap_map] at h
  obtain ⟨s, hs, hf⟩ := List.mem_filterMap.1 h
  cases s with
  | function =>
    cases hf
    exact ⟨_, _, _, hs, rfl⟩
  | conditional cond body other => cases other <;> cases hf
  | var | block | loop | returning | expr => cases hf

/-- The scopes at the beginning of a function's body. -/
def FunctionDecl.entry (f : FunctionDecl) : Progress := ⟨[[], paramScope f.params], 0, 0⟩

/-- How a function is lowered: parameters are wrapped on entry, and zero is the result if nothing
returns before the end. -/
def LowersFunction (declared : Declared) (f : FunctionDecl) (g : Func) : Prop :=
  ∃ code p, lowerStmts declared (.function f.result) f.body f.entry = .ok (code, p) ∧
    g = ⟨f.id, f.params.length, p.locals, narrowParams f.params ++ code ++ [.const 0]⟩

theorem lowerFunction_eq_ok_iff {declared : Declared} {f : FunctionDecl} {g : Func} :
    lowerFunction declared f = .ok g ↔ LowersFunction declared f g := by
  constructor
  · intro h
    obtain ⟨⟨code, p⟩, hcode, h⟩ := Except.bind_eq_ok.1 h
    obtain ⟨_, p₁, hpush, hcode⟩ := Lower.bind_eq_ok.1 hcode
    cases hpush
    obtain ⟨inner, p₂, hbody, hcode⟩ := Lower.bind_eq_ok.1 hcode
    cases hcode
    cases h
    exact ⟨code, p₂, hbody, rfl⟩
  · rintro ⟨code, p, hcode, rfl⟩
    refine Except.bind_eq_ok.2 ⟨(code, { p with scopes := p.scopes.tail }), ?_, rfl⟩
    refine Lower.bind_eq_ok.2 ⟨_, f.entry, rfl, ?_⟩
    exact Lower.bind_eq_ok.2 ⟨code, p, hcode, rfl⟩

/-- The statements of a function are lowered as they are written. -/
theorem FunctionDecl.lowers {declared : Declared} {f : FunctionDecl} {code : List Instr}
    {p : Progress} (h : lowerStmts declared (.function f.result) f.body f.entry = .ok (code, p))
    {body : List Stmt} (hfold : Stmt.foldAll body = f.body) :
    LowersStmts declared (.function f.result) f.entry body code p := by
  rw [← hfold] at h
  exact lowers_of_lowerStmts body nofun h

theorem forall₂_of_mapM_eq_ok {ε α β : Type} {g : α → Except ε β} {as : List α} {bs : List β}
    (h : as.mapM g = .ok bs) : List.Forall₂ (fun a b => g a = .ok b) as bs := by
  induction as generalizing bs with
  | nil =>
    cases h
    exact .nil
  | cons a rest ih =>
    rw [List.mapM_cons] at h
    obtain ⟨b, hb, h⟩ := Except.bind_eq_ok.1 h
    obtain ⟨bs', hbs, h⟩ := Except.bind_eq_ok.1 h
    cases h
    exact .cons hb (ih hbs)

/-- The beginning of the program's own statements. -/
def Progress.start : Progress := ⟨[[]], 0, 0⟩

/-- How a program is lowered. -/
structure LowersProgram (declared : Declared) (body : List Stmt) (m : Module) : Prop where
  functions_eq : declared.functions = (Stmt.foldAll body).filterMap declaredFunction?
  functions_nodup : (declared.functions.map (·.id)).Nodup
  globalsOf : GlobalsOf declared.globals (body.filterMap declaredVariable?)
  globals_eq : m.globals = declared.globals.map (·.1)
  funcs : List.Forall₂ (LowersFunction declared) declared.functions m.funcs
  start_eq : ∃ code p, lowerStmts declared .start (Stmt.foldAll body) .start = .ok (code, p) ∧
    m.startLocals = p.locals ∧ m.startBody = code ++ [.const 0]

/-- The program's own statements are lowered as they are written. -/
theorem LowersProgram.start {declared : Declared} {body : List Stmt} {m : Module}
    (h : LowersProgram declared body m) :
    ∃ code p, LowersStmts declared .start .start body code p ∧ m.startLocals = p.locals ∧
      m.startBody = code ++ [.const 0] := by
  obtain ⟨code, p, hcode, hrest⟩ := h.start_eq
  exact ⟨code, p, lowers_of_lowerStmts body nofun hcode, hrest⟩

/-- Every function of the program is lowered, and found by its id. -/
theorem LowersProgram.lowersFunction {declared : Declared} {body : List Stmt} {m : Module}
    (h : LowersProgram declared body m) {f : FunctionDecl} (hf : f ∈ declared.functions) :
    ∃ g, m.funcs.find? (·.id == f.id) = some g ∧ LowersFunction declared f g := by
  have hfuncs := h.funcs
  have hnodup := h.functions_nodup
  generalize declared.functions = fs, m.funcs = gs at hf hfuncs hnodup ⊢
  induction hfuncs with
  | nil => cases hf
  | @cons f' g' fs gs hhead _ ih =>
    have hid : g'.id = f'.id := by
      obtain ⟨_, _, _, rfl⟩ := hhead
      rfl
    rcases List.mem_cons.1 hf with rfl | hf
    · exact ⟨g', List.find?_cons_of_pos (by simp [hid]), hhead⟩
    · obtain ⟨hnew, hnodup⟩ := List.nodup_cons.1 hnodup
      have hne : f'.id ≠ f.id := fun heq => hnew (List.mem_map.2 ⟨f, hf, heq.symm⟩)
      rw [List.find?_cons_of_neg (by simpa [hid] using hne)]
      exact ih hf hnodup

theorem LowersProgram.function_unique {declared : Declared} {body : List Stmt} {m : Module}
    (h : LowersProgram declared body m) {f f' : FunctionDecl} (hf : f ∈ declared.functions)
    (hf' : f' ∈ declared.functions) (hid : f.id = f'.id) : f = f' :=
  List.inj_on_of_nodup_map h.functions_nodup hf hf' hid

theorem lowersProgram_of_lowerProgram {table : SymbolTable} {p : Program} {m : Module}
    (h : lowerProgram table p.fold = .ok m) :
    ∃ functions, collectFunctions table [] p.fold.body = .ok functions ∧
      LowersProgram ⟨table, functions, collectGlobals [] p.fold.body⟩ p.body m := by
  obtain ⟨functions, hfunctions, h⟩ := Except.bind_eq_ok.1 h
  obtain ⟨funcs, hfuncs, h⟩ := Except.bind_eq_ok.1 h
  obtain ⟨⟨code, progress⟩, hstart, h⟩ := Except.bind_eq_ok.1 h
  cases h
  have hnil : (([] : List FunctionDecl).map (·.id)).Nodup := .nil
  obtain ⟨heq, hnodup⟩ := collectFunctions_eq_ok hnil hfunctions
  have hglobals : GlobalsOf (collectGlobals [] p.fold.body) ((p.body).filterMap declaredVariable?) := by
    have hnone : GlobalsOf [] [] := ⟨fun x hx => hx, List.Subset.refl _, .nil⟩
    rw [← filterMap_declaredVariable?_foldAll]
    exact globalsOf_collectGlobals hnone
  exact ⟨functions, hfunctions, heq, hnodup, hglobals, rfl,
    (forall₂_of_mapM_eq_ok hfuncs).imp fun _ _ => lowerFunction_eq_ok_iff.1,
    code, progress, hstart, rfl, rfl⟩

end Wat

end Ember
