import Ember.Proofs.Fold.Native
import Ember.Proofs.Run.Lands
import Ember.Proofs.Wat.Site

namespace Ember

open Exec

namespace Expr

theorem foldedGroup_eq_literal {inner : Expr} {loc at' : Location} {value : Literal}
    (h : foldedGroup inner loc = .literal value at') : ∃ loc', inner = .literal value loc' := by
  unfold foldedGroup at h
  split at h
  · cases h
    exact ⟨_, rfl⟩
  · cases h

theorem foldedUnary_eq_literal {op : UnaryOp} {operand : Expr} {loc at' : Location}
    {value : Literal} (h : foldedUnary op operand loc = .literal value at') :
    ∃ v loc', operand = .literal v loc' ∧ value = v.apply op := by
  unfold foldedUnary at h
  split at h
  · cases h
    exact ⟨_, _, rfl, rfl⟩
  · cases h

theorem foldedBinary_eq_literal {op : BinaryOp} {left right : Expr} {loc at' : Location}
    {value : Literal} (h : foldedBinary op left right loc = .literal value at') :
    ∃ a b loc₁ loc₂, left = .literal a loc₁ ∧ right = .literal b loc₂ ∧
      Literal.combine? op a b = some value := by
  unfold foldedBinary at h
  split at h
  · split at h
    · rename_i hcombine
      cases h
      exact ⟨_, _, _, _, rfl, rfl, hcombine⟩
    · cases h
  · cases h

variable (setting : Setting) (invoke : Invoke) (scope : List Nat)

/-- An expression that is folded to a constant has its value, whatever else happens. -/
theorem eval_of_fold_literal : (e : Expr) → {value : Literal} → {loc : Location} → e.Native →
    e.fold = .literal value loc →
    value.IsNative ∧ e.eval setting invoke scope = pure (Value.ofLiteral value)
  | .literal value _, _, _, hnative, h => by
    cases h
    exact ⟨hnative, rfl⟩
  | .var _ _, _, _, _, h | .assign _ _ _, _, _, _, h | .call _ _ _, _, _, _, h => by
    simp [fold] at h
  | .group inner _, value, _, hnative, h => by
    obtain ⟨loc', hinner⟩ := foldedGroup_eq_literal h
    exact eval_of_fold_literal inner hnative hinner
  | .unary op operand loc, value, _, hnative, h => by
    obtain ⟨v, loc', hoperand, rfl⟩ := foldedUnary_eq_literal h
    obtain ⟨hv, heval⟩ := eval_of_fold_literal operand hnative hoperand
    obtain ⟨happly, hunary⟩ := Literal.unary_apply hv op loc
    simp only [eval, heval, pure_bind]
    exact ⟨happly, hunary⟩
  | .binary op left right loc, value, _, hnative, h => by
    obtain ⟨a, b, _, _, hleft, hright, hcombine⟩ := foldedBinary_eq_literal h
    obtain ⟨ha, hevalLeft⟩ := eval_of_fold_literal left hnative.1 hleft
    obtain ⟨hb, hevalRight⟩ := eval_of_fold_literal right hnative.2 hright
    obtain ⟨hvalue, hbinary⟩ := Literal.binary_of_combine? ha hb hcombine loc
    simp only [eval, hevalLeft, hevalRight, pure_bind]
    exact ⟨hvalue, hbinary⟩

/-- Parentheses around a variable are of no account. -/
theorem eval_of_named? : (e : Expr) → {id : Int} → e.named? = some id →
    ∃ loc, e.eval setting invoke scope = do return (← lookup setting scope id loc).2.value
  | .var _ loc, _, h => by
    cases h
    exact ⟨loc, rfl⟩
  | .group inner _, _, h => eval_of_named? inner h
  | .literal _ _, _, h | .assign _ _ _, _, h | .unary _ _ _, _, h | .binary _ _ _ _, _, h
  | .call _ _ _, _, h => by cases h

end Expr

namespace Wat

/-- The variables that a program declares outside every block and function. -/
abbrev globalsIn (body : List Stmt) : List (Int × Datatype) := body.filterMap declaredVariable?

/-- A program that is lowered, in which nothing is the name of a function and of a variable. -/
structure Admissible (declared : Declared) (body : List Stmt) (module : Module) : Prop
    extends LowersProgram declared body module where
  distinct : ∀ f ∈ declared.functions, f.id ∉ (globalsIn body).map (·.1)
  noPrint : ∀ id ∈ (globalsIn body).map (·.1), View.nameOf declared id ≠ .ok "print"
  printable : ∀ s ∈ body, s.Printable declared.table.nameOf

/-- The closure that a function is at run time. -/
structure Implements (body : List Stmt) (g : Closure) (f : FunctionDecl) : Prop where
  params_eq : g.params = f.params
  result_eq : g.result = f.result
  body_eq : Stmt.foldAll g.body = f.body
  scope_eq : g.scope = [0]
  mem : ∃ bodyLoc loc, .function f.id f.params f.result g.body bodyLoc loc ∈ body

/-- A function is made of what a source text can give. -/
theorem Admissible.printable_function {declared : Declared} {body : List Stmt} {module : Module}
    (h : Admissible declared body module) {g : Closure} {f : FunctionDecl}
    (himp : Implements body g f) :
    (∀ p ∈ f.params, p.Printable declared.table.nameOf) ∧ f.result.keyword?.isSome ∧
      ∀ s ∈ g.body, s.Printable declared.table.nameOf := by
  obtain ⟨_, _, hmem⟩ := himp.mem
  obtain ⟨_, hparams, hresult, hbody⟩ := h.printable _ hmem
  exact ⟨hparams, hresult, hbody.of_mem⟩

/-- The id under which `print` is declared. -/
def printId (table : SymbolTable) : Int := (table.add "print" .empty).1

/-- What the program's own frame holds, variables apart: `print`, and functions as they were
declared. -/
def Faithful (declared : Declared) (body : List Stmt) (m : Machine) : Prop :=
  ∀ id b, (m.frameAt 0).find? id = some b → id ∉ (globalsIn body).map (·.1) →
    (b.value = .func .print ∧ id = printId declared.table) ∨
      ∃ f g, f ∈ declared.functions ∧ f.id = id ∧ b.value = .func (.closure g) ∧
        Implements body g f

theorem Faithful.push {declared : Declared} {body : List Stmt} {m : Machine}
    (h : Faithful declared body m) :
    Faithful declared body { m with frames := m.frames.push [] } := by
  intro id b hb
  rw [Machine.frameAt_push] at hb
  exact h id b hb

/-- What a run changes where the given frames are in scope, and declares names in the frame `own`
at most. -/
structure Keeps (declared : Declared) (body : List Stmt) (own : Option Nat) (frames : List Nat)
    (m m' : Machine) : Prop where
  faithful : Faithful declared body m'
  evolves : m.Evolves own m'
  confined : ∀ k < m.frames.size, k ∉ frames → m'.frameAt k = m.frameAt k

namespace Keeps

variable {declared : Declared} {body : List Stmt} {own : Option Nat} {frames : List Nat}
  {m m' m'' : Machine}

theorem of_frames (h : Faithful declared body m) (hframes : m'.frames = m.frames) :
    Keeps declared body own frames m m' := by
  have hat : ∀ k, m'.frameAt k = m.frameAt k := fun k => by simp only [Machine.frameAt, hframes]
  exact ⟨fun id b hb hid => h id b (hat 0 ▸ hb) hid, .of_frames hframes, fun k _ _ => hat k⟩

theorem refl (h : Faithful declared body m) : Keeps declared body own frames m m :=
  of_frames h rfl

theorem trans (h : Keeps declared body own frames m m') (h' : Keeps declared body own frames m' m'') :
    Keeps declared body own frames m m'' := by
  refine ⟨h'.faithful, h.evolves.trans h'.evolves, fun k hk hout => ?_⟩
  rw [h'.confined k (Nat.lt_of_lt_of_le hk h.evolves.size_le) hout, h.confined k hk hout]

theorem mono (h : Keeps declared body none frames m m') (own : Option Nat) :
    Keeps declared body own frames m m' :=
  ⟨h.faithful, h.evolves.mono own, h.confined⟩

theorem of_root (h : Keeps declared body own [0] m m') (hzero : 0 ∈ frames) :
    Keeps declared body own frames m m' :=
  ⟨h.faithful, h.evolves, fun k hk hout => h.confined k hk fun hmem =>
    hout (List.mem_singleton.1 hmem ▸ hzero)⟩

/-- A change of a frame in scope. In the program's own frame only variables may change. -/
theorem modify (h : Faithful declared body m) {frame : Nat} (hmem : frame ∈ frames)
    {g : Frame → Frame} (hev : m.Evolves own { m with frames := m.frames.modify frame g })
    (hroot : frame = 0 → ∀ id, id ∉ (globalsIn body).map (·.1) →
      ∀ f : Frame, (g f).find? id = f.find? id) :
    Keeps declared body own frames m { m with frames := m.frames.modify frame g } := by
  refine ⟨fun id b hb hid => ?_, hev, fun k hk hout => ?_⟩
  · rw [Machine.frameAt_modify] at hb
    split at hb
    · rename_i hframe
      rw [hroot hframe.1 id hid] at hb
      exact h id b hb hid
    · exact h id b hb hid
  · have hne : ¬(frame = k ∧ frame < m.frames.size) := fun heq => hout (heq.1 ▸ hmem)
    rw [Machine.frameAt_modify, if_neg hne]

/-- What ran in a new frame. -/
theorem of_frame (h : Keeps declared body (some m.frames.size) (m.frames.size :: frames)
      { m with frames := m.frames.push [] } m') :
    Keeps declared body none frames m m' := by
  have hpush := (Machine.Evolves.push m).mono (some m.frames.size)
  refine ⟨h.faithful, (hpush.trans h.evolves).of_fresh (Nat.le_refl _), fun k hk hout => ?_⟩
  rw [h.confined k (by simp; omega), Machine.frameAt_push]
  rintro (_ | ⟨_, hmem⟩)
  · exact Nat.lt_irrefl _ hk
  · exact hout hmem

end Keeps

/-- Calls of the program's functions keep what there is outside of them. -/
def LawfulInvoke (declared : Declared) (body : List Stmt) (invoke : Invoke) : Prop :=
  ∀ g f args loc m, f ∈ declared.functions → Implements body g f →
    args.length = f.params.length → Faithful declared body m → 0 < m.frames.size →
      (invoke g args loc).Lands m fun _ m' => Keeps declared body none [0] m m'

section

variable {declared : Declared} {body : List Stmt} {module : Module} {setting : Setting}
  {invoke : Invoke} {role : Role} {scopes : List Scope} {frames : List Nat} {m : Machine}

theorem View.function?_eq_some {v : View} {id : Int} {f : FunctionDecl}
    (h : v.function? id = some f) : f ∈ v.declared.functions ∧ f.id = id :=
  ⟨List.mem_of_find?_eq_some h, by simpa using List.find?_some h⟩

/-- What a call finds under the name of a function or of `print`. -/
theorem Admissible.callee (hprogram : Admissible declared body module)
    (hfaith : Faithful declared body m)
    (hsite : Mirrors (globalsIn body) m role scopes frames) {id : Int}
    (hvar : View.lookup ⟨declared, role, scopes⟩ id = none)
    (hid : id ∉ (globalsIn body).map (·.1)) {x : Nat × Binding}
    (hfind : findIn m.frames id frames = some x) :
    (x.2.value = .func .print ∧ id = printId declared.table) ∨
      ∃ f g, f ∈ declared.functions ∧ f.id = id ∧ x.2.value = .func (.closure g) ∧
        Implements body g f := by
  cases hsite.refers hprogram.globalsOf.mem id with
  | inner hslot => cases hvar.symm.trans hslot
  | root _ hroot =>
    obtain ⟨b, hb, rfl⟩ := Option.map_eq_some_iff.1 (hroot.symm.trans hfind)
    exact hfaith id b hb hid

end

end Wat

end Ember
