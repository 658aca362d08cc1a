import Ember.Proofs.Wat.Acceptance
import Ember.Proofs.Wat.Spelling

namespace Ember.Wat

/-- What code takes from the stack and leaves there. -/
def Types (c : Context) (code : List Instr) (ts us : List ValType) : Prop :=
  HasType c (Instr.sexpsAll code) ts us

namespace Types

variable {c : Context} {i : Instr} {code more : List Instr} {ts us vs : List ValType}

theorem nil : Types c [] [] [] := HasType.nil

theorem append (h : Types c code ts us) (h' : Types c more us vs) : Types c (code ++ more) ts vs := by
  rw [Types, Instr.sexpsAll_append]
  exact HasType.append h h'

theorem cons (h : HasType c i.sexps ts us) (h' : Types c code us vs) : Types c (i :: code) ts vs :=
  HasType.append h h'

theorem frame (below : List ValType) (h : Types c code ts us) :
    Types c code (below ++ ts) (below ++ us) :=
  HasType.frame below h

theorem single (h : HasType c i.sexps ts us) : Types c [i] ts us := by
  rw [Types, Instr.sexpsAll, Instr.sexpsAll, List.append_nil]
  exact h

theorem const (v : Int64) (below : List ValType) : Types c [.const v] below (below ++ [.i64]) := by
  have hlow := v.le_toInt
  have hhigh := v.toInt_lt
  have h : Types c [.const v] [] [.i64] := single (.const _ (by omega) (by omega))
  have hframe := h.frame below
  rwa [List.append_nil] at hframe

end Types

/-- What an instruction on numbers takes and leaves. -/
def NumOp.signature : NumOp → Signature
  | add | sub | mul | divS | divU | remS | remU | and => ⟨[.i64, .i64], [.i64]⟩
  | eq | ne | ltS | ltU | gtS | gtU | leS | leU | geS | geU => ⟨[.i64, .i64], [.i32]⟩
  | extend8S | extend16S | extend32S => ⟨[.i64], [.i64]⟩
  | eqz => ⟨[.i64], [.i32]⟩
  | extendI32U => ⟨[.i32], [.i64]⟩

section

variable {c : Context}

theorem types_num (op : NumOp) : Types c [.num op] op.signature.params op.signature.results :=
  .single (.numeric (by cases op <;> decide))

/-- Narrowing replaces a word. -/
theorem types_narrowing (type : Datatype) : Types c (narrowing type) [.i64] [.i64] := by
  have hkeep : Types c [] [.i64] [.i64] := Types.nil.frame [.i64]
  have hmask : ∀ mask, Types c [.const mask, .num .and] [.i64] [.i64] := fun mask =>
    (Types.const mask [.i64]).append (types_num .and)
  cases type with
  | boolean =>
    exact ((Types.const 0 [.i64]).append (types_num .ne)).append (types_num .extendI32U)
  | int8 => exact types_num .extend8S
  | int16 => exact types_num .extend16S
  | int32 => exact types_num .extend32S
  | uint8 | uint16 | uint32 => exact hmask _
  | _ => exact hkeep

theorem types_comparison {op : NumOp} (h : op.signature = ⟨[.i64, .i64], [.i32]⟩) :
    Types c (comparison op) [.i64, .i64] [.i64] := by
  have hop := types_num (c := c) op
  rw [h] at hop
  exact hop.append (types_num .extendI32U)

/-- An operator replaces two words by one. -/
theorem types_signedOp {op : BinaryOp} (h : op.mark?.isSome) :
    Types c (signedOp op) [.i64, .i64] [.i64] := by
  cases op with
  | add => exact types_num .add
  | sub => exact types_num .sub
  | mul => exact types_num .mul
  | div => exact types_num .divS
  | mod => exact types_num .remS
  | eq | ne | lt | gt | le | ge => exact types_comparison rfl
  | unknown => cases h

theorem types_unsignedOp {op : BinaryOp} (h : op.mark?.isSome) :
    Types c (unsignedOp op) [.i64, .i64] [.i64] := by
  cases op with
  | div => exact types_num .divU
  | mod => exact types_num .remU
  | lt | gt | le | ge => exact types_comparison rfl
  | add | sub | mul | eq | ne => exact types_signedOp h
  | unknown => cases h

end

/-- The number of the loop that a label belongs to. -/
def Label.number : Label → Nat
  | brk n | cont n => n

/-- The place is declared, and once. -/
def Context.Holds (c : Context) : Place → Prop
  | .local x => DeclaredOnce x.name c.locals
  | .global id => DeclaredOnce (globalName id) c.globals

section

variable {c : Context} {place : Place}

theorem types_get (h : c.Holds place) : Types c [place.get] [] [.i64] := by
  cases place with
  | «local» x => exact .single (.localGet h)
  | global id => exact .single (.globalGet h)

theorem types_set (h : c.Holds place) : Types c [place.set] [.i64] [] := by
  cases place with
  | «local» x => exact .single (.localSet h)
  | global id => exact .single (.globalSet h)

theorem types_tee (h : c.Holds place) : Types c place.tee [.i64] [.i64] := by
  cases place with
  | «local» x => exact .single (.localTee h)
  | global id => exact .cons (.globalSet h) (.single (.globalGet h))

end

/-- The code of a function may use what the program declares, what the host provides, and as many
variables as there are. -/
structure Context.Provides (c : Context) (declared : Declared) (locals : Nat) : Prop where
  hosts : hostImports.map (fun i => (i.name, ⟨i.params, []⟩)) ⊆ c.funcs
  functions : ∀ f ∈ declared.functions, ((FuncRef.user f.id).name,
    ⟨List.replicate f.params.length .i64, [.i64]⟩) ∈ c.funcs
  funcs_nodup : (c.funcs.map (·.1)).Nodup
  globals : ∀ id ∈ declared.globals.map (·.1), DeclaredOnce (globalName id) c.globals
  temps : ∀ i < locals, DeclaredOnce (Local.temp i).name c.locals
  results_eq : c.results = [.i64]

/-- The variables that can be named at a place of the program are declared. -/
def View.Covered (v : View) (c : Context) : Prop :=
  ∀ id slot, v.lookup id = some slot → c.Holds slot.place

section

variable {c : Context} {declared : Declared} {locals : Nat}

/-- A function is called by its name, which is declared once. -/
theorem Context.Provides.types_call (h : c.Provides declared locals) {f : FuncRef} {s : Signature}
    (hf : (f.name, s) ∈ c.funcs) : Types c [.call f] s.params s.results := by
  have honce : DeclaredOnce f.name (c.funcs.map (·.1)) :=
    List.count_eq_one_of_mem h.funcs_nodup (List.mem_map_of_mem hf)
  exact .single (.call honce hf)

theorem Context.Provides.types_printer (h : c.Provides declared locals) (v : View) (e : Expr) :
    Types c [.call (v.printer e)] [.i64] [] := by
  unfold View.printer
  split
  · exact h.types_call (f := .printBool) (s := ⟨[.i64], []⟩) (h.hosts (by decide))
  · split
    · exact h.types_call (f := .printU64) (s := ⟨[.i64], []⟩) (h.hosts (by decide))
    · exact h.types_call (f := .printI64) (s := ⟨[.i64], []⟩) (h.hosts (by decide))

variable {v : View} {name : Int → String}

mutual

/-- An expression leaves one word. -/
theorem types_expr (h : c.Provides v.declared locals) (hv : v.Covered c) :
    {e : Expr} → {code : List Instr} → Lowers v e code → e.Printable name →
    Types c code [] [.i64]
  | _, _, .constant _, _ => .const _ []
  | .var _ _, _, .var hslot, _ => types_get (hv _ _ hslot)
  | .group inner _, _, .group _ hinner, hprintable => types_expr (e := inner) h hv hinner hprintable
  | .assign _ value _, _, .assign _ hslot hvalue, hprintable =>
    ((types_expr h hv hvalue hprintable.2.2).append (types_narrowing _)).append
      (types_tee (hv _ _ hslot))
  | .unary .neg operand _, _, .neg _ hoperand, hprintable =>
    ((Types.const 0 []).append ((types_expr h hv hoperand hprintable.2).frame [.i64])).append
      (types_num .sub)
  | .unary .not operand _, _, .not _ hoperand, hprintable =>
    (types_expr h hv hoperand hprintable.2).append
      ((types_num .eqz).append (types_num .extendI32U))
  | .binary op left right _, _, .binary _ hleft hright, hprintable => by
    have ha := types_expr h hv hleft hprintable.2.2.1
    have hb := (types_expr h hv hright hprintable.2.2.2).frame [.i64]
    refine (ha.append hb).append ?_
    split
    · exact types_unsignedOp hprintable.1
    · exact types_signedOp hprintable.1
  | .call _ args _, _, .call _ _ hfunction harity hargs, hprintable => by
    have hcall := h.types_call (h.functions _ (View.function?_eq_some hfunction).1)
    rw [harity] at hcall
    exact (types_args h hv hargs hprintable.2.2).append hcall
  | .call _ args _, _, .print _ _ _ _ hargs, hprintable =>
    (types_printed h hv hargs hprintable.2.2).append
      ((h.types_call (f := .printNewline) (s := ⟨[], []⟩) (h.hosts (by decide))).append (.const 0 []))

/-- Arguments leave a word each. -/
theorem types_args (h : c.Provides v.declared locals) (hv : v.Covered c) :
    {es : List Expr} → {code : List Instr} → LowersAll v es code → Expr.PrintableAll name es →
    Types c code [] (List.replicate es.length .i64)
  | [], _, .nil, _ => .nil
  | e :: rest, _, .cons hhead hrest, hprintable => by
    have hmore := (types_args h hv hrest hprintable.2).frame [.i64]
    exact (types_expr h hv hhead hprintable.1).append hmore

/-- What is printed leaves nothing. -/
theorem types_printed (h : c.Provides v.declared locals) (hv : v.Covered c) :
    {es : List Expr} → {code : List Instr} → LowersPrinted v es code → Expr.PrintableAll name es →
    Types c code [] []
  | [], _, .nil, _ => .nil
  | [e], _, .last hlast, hprintable =>
    (types_expr h hv hlast hprintable.1).append (h.types_printer v _)
  | e :: rest, _, .cons hhead _ hrest, hprintable =>
    ((types_expr h hv hhead hprintable.1).append (h.types_printer v _)).append
      ((h.types_call (f := .printSpace) (s := ⟨[], []⟩) (h.hosts (by decide))).append
        (types_printed h hv hrest hprintable.2))

end

theorem types_exprOr (h : c.Provides v.declared locals) (hv : v.Covered c) {e : Option Expr}
    {code : List Instr} (hcode : LowersOr v e code) (hprintable : Expr.PrintableOption name e) :
    Types c code [] [.i64] := by
  cases hcode with
  | none => exact .const 0 []
  | some he => exact types_expr h hv he (hprintable _ rfl)

/-- Leaving a function takes its result. What follows is not reached. -/
theorem types_leaving (h : c.Provides declared locals) (role : Role) :
    Types c (leaving role) [.i64] [] := by
  have hret : Types c [.ret] [.i64] [] := by
    have hret := HasType.ret (c := c) [] []
    rw [h.results_eq] at hret
    exact .single hret
  cases role with
  | start => exact hret
  | function result =>
    have hvoid : Types c (if result = .void then [.drop, .const 0] else []) [.i64] [.i64] := by
      split
      · exact .cons (.drop .i64) (.const 0 [])
      · exact Types.nil.frame [.i64]
    exact (hvoid.append (types_narrowing result)).append hret

end

/-- Where statements are lowered, the variables in scope are declared, and the loops that follow
have labels of their own. -/
structure Progress.Covered (p : Progress) (c : Context) : Prop where
  holds : ∀ scope ∈ p.scopes, ∀ x ∈ scope, c.Holds x.2.place
  fresh : ∀ l : Label, p.loops < l.number → l.name ∉ c.labels

/-- The context in a loop. -/
def Context.inLoop (c : Context) (n : Nat) : Context :=
  { c with labels := (Label.cont n).name :: (Label.brk n).name :: c.labels }

theorem Context.Provides.inLoop {c : Context} {declared : Declared} {locals : Nat}
    (h : c.Provides declared locals) (n : Nat) : (c.inLoop n).Provides declared locals :=
  ⟨h.hosts, h.functions, h.funcs_nodup, h.globals, h.temps, h.results_eq⟩

namespace Progress.Covered

variable {c : Context} {p : Progress} {declared : Declared} {locals : Nat} {scope : Scope}
  {rest : List Scope}

theorem view (hp : p.Covered c) (h : c.Provides declared locals) (role : Role) :
    (p.view declared role).Covered c := by
  have hfind : ∀ (scopes : List Scope) (id : Int) (slot : Slot),
      (∀ scope ∈ scopes, ∀ x ∈ scope, c.Holds x.2.place) → View.findIn id scopes = some slot →
      c.Holds slot.place := by
    intro scopes id slot hholds hslot
    induction scopes with
    | nil => cases hslot
    | cons scope rest ih =>
      obtain ⟨hscope, hrest⟩ := List.forall_mem_cons.1 hholds
      unfold View.findIn at hslot
      split at hslot
      · rename_i hfound
        cases hslot
        exact hscope _ (List.mem_of_find?_eq_some hfound)
      · exact ih hrest hslot
  intro id slot hslot
  unfold View.lookup at hslot
  split at hslot
  · rename_i hfound
    cases hslot
    exact hfind _ _ _ hp.holds hfound
  · cases hslot
  · obtain ⟨⟨key, type⟩, hfound, rfl⟩ := Option.map_eq_some_iff.1 hslot
    obtain rfl : key = id := by simpa using List.find?_some hfound
    exact h.globals _ (List.mem_map_of_mem (List.mem_of_find?_eq_some hfound))

theorem push (hp : p.Covered c) : Covered { p with scopes := [] :: p.scopes } c :=
  ⟨List.forall_mem_cons.2 ⟨nofun, hp.holds⟩, hp.fresh⟩

theorem pop (hp : p.Covered c) : Covered { p with scopes := p.scopes.tail } c :=
  ⟨fun scope hscope => hp.holds scope (List.mem_of_mem_tail hscope), hp.fresh⟩

theorem declare (hp : p.Covered c) (hscopes : p.scopes = scope :: rest) (id : Int) {slot : Slot}
    (hslot : c.Holds slot.place) (locals : Nat) :
    Covered ⟨((id, slot) :: scope) :: rest, locals, p.loops⟩ c := by
  have hholds := hp.holds
  rw [hscopes] at hholds
  obtain ⟨hscope, hrest⟩ := List.forall_mem_cons.1 hholds
  exact ⟨List.forall_mem_cons.2 ⟨List.forall_mem_cons.2 ⟨hslot, hscope⟩, hrest⟩, hp.fresh⟩

/-- A loop takes the labels of the next number. -/
theorem enterLoop (hp : p.Covered c) :
    Covered { p with loops := p.loops + 1 } (c.inLoop (p.loops + 1)) := by
  refine ⟨hp.holds, fun l hl hmem => ?_⟩
  simp only [Context.inLoop, List.mem_cons] at hmem
  rcases hmem with heq | heq | hmem
  · rw [Label.name_injective heq] at hl
    exact Nat.lt_irrefl _ hl
  · rw [Label.name_injective heq] at hl
    exact Nat.lt_irrefl _ hl
  · exact hp.fresh l (Nat.lt_of_succ_lt hl) hmem

theorem leaveLoop {n : Nat} (hp : p.Covered (c.inLoop n)) : p.Covered c :=
  ⟨hp.holds, fun l hl hmem => hp.fresh l hl (List.mem_cons_of_mem _ (List.mem_cons_of_mem _ hmem))⟩

end Progress.Covered

/-- A loop leaves the stack as it was if its body does. -/
theorem types_whileLoop {c : Context} {n : Nat} {test body : List Instr}
    (hfresh : ∀ l : Label, l.number = n → l.name ∉ c.labels)
    (htest : Types (c.inLoop n) test [] [.i64]) (hbody : Types (c.inLoop n) body [] []) :
    Types c [whileLoop n test body] [] [] := by
  have hne : (Label.cont n).name ≠ (Label.brk n).name := fun h => nomatch Label.name_injective h
  have hbrk : DeclaredOnce (Label.brk n).name (c.inLoop n).labels := by
    rw [DeclaredOnce, Context.inLoop, List.count_cons_of_ne hne, List.count_cons_self,
      List.count_eq_zero_of_not_mem (hfresh _ rfl)]
  have hcont : DeclaredOnce (Label.cont n).name (c.inLoop n).labels := by
    rw [DeclaredOnce, Context.inLoop, List.count_cons_self, List.count_cons_of_ne hne.symm,
      List.count_eq_zero_of_not_mem (hfresh _ rfl)]
  have hleave : Types (c.inLoop n) [.num .eqz, .brIf (.brk n)] [.i64] [] :=
    (types_num .eqz).append (.single (.brIf hbrk))
  have hagain : Types (c.inLoop n) [.br (.cont n)] [] [] := .single (.br hcont [] [])
  have hround := ((htest.append hleave).append hbody).append hagain
  have hloop : Types { c with labels := (Label.brk n).name :: c.labels }
      [.loop (.cont n) (test ++ [.num .eqz, .brIf (.brk n)] ++ body ++ [.br (.cont n)])] [] [] :=
    .single (.loop hround)
  exact .single (.block hloop)

section

variable {declared : Declared} {body : List Stmt} {module : Module} {role : Role}
  {limit : Nat} {name : Int → String}

mutual

/-- A statement leaves the stack as it was. -/
theorem types_stmt (hprogram : LowersProgram declared body module)
    {c : Context} (h : c.Provides declared limit) {p p' : Progress} :
    {s : Stmt} → {code : List Instr} → LowersStmt declared role p s code p' → s.Printable name →
    (p.IsTop role → s.isDeclaration = true → s ∈ body) → p.scopes ≠ [] → p'.locals ≤ limit →
    p.Covered c → Types c code [] [] ∧ p'.Covered c
  | .function _ _ _ _ _ _, _, .function _, _, _, _, _, hp => ⟨.nil, hp⟩
  | .var id type init loc, _, .global hrole hscopes hinit, hprintable, hmem, _, _, hp => by
    have htop : p.IsTop role := ⟨hrole, by rw [hscopes]; rfl⟩
    have hglobal : (id, type) ∈ globalsIn body := List.mem_filterMap.2 ⟨_, hmem htop rfl, rfl⟩
    have hholds : c.Holds (.global id) :=
      h.globals id (hprogram.globalsOf.ids (List.mem_map_of_mem hglobal))
    have hvalue := types_exprOr h (hp.view h role) hinit hprintable.2.2
    exact ⟨(hvalue.append (types_narrowing type)).append (types_set hholds),
      hp.declare hscopes id hholds _⟩
  | .var id type init loc, _, .local htop hscopes hinit, hprintable, _, _, hlimit, hp => by
    have hholds : c.Holds (.local (.temp p.locals)) := h.temps _ hlimit
    have hvalue := types_exprOr h (hp.view h role) hinit hprintable.2.2
    exact ⟨(hvalue.append (types_narrowing type)).append (types_set hholds),
      hp.declare hscopes id hholds _⟩
  | .block stmts loc, _, .block hbody, hprintable, _, hne, hlimit, hp => by
    have hnot := not_isTop_inner [] fun (_ : role = .start) => hne
    obtain ⟨hcode, hp'⟩ := types_stmts hprogram h hbody (Stmt.PrintableAll.of_mem hprintable)
      (fun htop => absurd htop hnot) nofun hlimit hp.push
    exact ⟨hcode, hp'.pop⟩
  | .conditional cond stmt none loc, _, .ifThen hcond hbody, hprintable, _, hne, hlimit, hp => by
    have htest := types_expr h (hp.view h role) hcond hprintable.1
    obtain ⟨hcode, hp'⟩ := types_stmt hprogram h hbody hprintable.2.2
      (fun _ hdecl => absurd hdecl (by simp [hprintable.2.1])) hne hlimit hp
    exact ⟨htest.append ((Types.const 0 [.i64]).append
      ((types_num .ne).append (.single (.ifThen hcode)))), hp'⟩
  | .conditional cond stmt (some other) loc, _, .ifElse hcond hbody hother, hprintable, _, hne, hlimit,
    hp => by
    obtain ⟨hprintableCond, ⟨hnot, hprintable⟩, _, hnot', hprintable'⟩ := hprintable
    have htest := types_expr h (hp.view h role) hcond hprintableCond
    obtain ⟨hcode, hp'⟩ := types_stmt hprogram h hbody hprintable
      (fun _ hdecl => absurd hdecl (by simp [hnot])) hne
      (Nat.le_trans hother.grows.locals_le hlimit) hp
    obtain ⟨hcode', hp''⟩ := types_stmt hprogram h hother hprintable'
      (fun _ hdecl => absurd hdecl (by simp [hnot'])) (hbody.grows.scopes_ne hne) hlimit hp'
    exact ⟨htest.append ((Types.const 0 [.i64]).append
      ((types_num .ne).append (.single (.ifElse hcode hcode')))), hp''⟩
  | .loop cond stmt loc, _, .loop hcond hbody, hprintable, _, hne, hlimit, hp => by
    obtain ⟨hprintableCond, hnot, hprintable⟩ := hprintable
    have hin := h.inLoop (p.loops + 1)
    have htest := types_expr hin (hp.enterLoop.view hin role) hcond hprintableCond
    obtain ⟨hcode, hp'⟩ := types_stmt hprogram hin hbody hprintable
      (fun _ hdecl => absurd hdecl (by simp [hnot])) hne hlimit hp.enterLoop
    refine ⟨types_whileLoop (fun l hl => hp.fresh l ?_) htest hcode, hp'.leaveLoop⟩
    omega
  | .returning value loc, _, .returning hvalue, hprintable, _, _, _, hp =>
    ⟨(types_exprOr h (hp.view h role) hvalue hprintable).append (types_leaving h role), hp⟩
  | .expr e loc, _, .expr he, hprintable, _, _, _, hp =>
    ⟨(types_expr (e := e) h (hp.view h role) he hprintable).append (.single (.drop .i64)), hp⟩

/-- So do statements, one after the other. -/
theorem types_stmts (hprogram : LowersProgram declared body module)
    {c : Context} (h : c.Provides declared limit) {p p' : Progress} :
    {ss : List Stmt} → {code : List Instr} → LowersStmts declared role p ss code p' →
    (∀ s ∈ ss, s.Printable name) →
    (p.IsTop role → ∀ s ∈ ss, s.isDeclaration = true → s ∈ body) → p.scopes ≠ [] →
    p'.locals ≤ limit → p.Covered c → Types c code [] [] ∧ p'.Covered c
  | [], _, .nil, _, _, _, _, hp => ⟨.nil, hp⟩
  | s :: rest, _, .cons hhead hrest, hprintable, hmem, hne, hlimit, hp => by
    obtain ⟨hprintableHead, hprintableRest⟩ := List.forall_mem_cons.1 hprintable
    obtain ⟨hcode, hp'⟩ := types_stmt hprogram h hhead hprintableHead
      (fun htop => hmem htop s List.mem_cons_self) hne
      (Nat.le_trans hrest.grows.locals_le hlimit) hp
    have htop := hhead.grows.isTop fun (_ : role = .start) => hne
    obtain ⟨hmore, hp''⟩ := types_stmts hprogram h hrest hprintableRest
      (fun h' s hs => hmem (htop h') s (List.mem_cons_of_mem _ hs)) (hhead.grows.scopes_ne hne) hlimit
      hp'
    exact ⟨hcode.append hmore, hp''⟩

end

end

end Ember.Wat
