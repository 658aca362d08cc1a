import Ember.Proofs.Run.Storage
import Ember.Proofs.Wat.Evaluation

namespace Ember

open Exec Course

namespace Expr

mutual

/-- The names of the variables in an expression, wherever in it. -/
def names : Expr → List Int
  | .literal _ _ => []
  | .var id _ => [id]
  | .group inner _ => inner.names
  | .assign target value _ => target.names ++ value.names
  | .unary _ operand _ => operand.names
  | .binary _ left right _ => left.names ++ right.names
  | .call callee args _ => callee.names ++ namesAll args

def namesAll : List Expr → List Int
  | [] => []
  | e :: rest => e.names ++ namesAll rest

end

theorem names_unparen : (e : Expr) → e.unparen.names = e.names
  | .group inner _ => names_unparen inner
  | .literal _ _ | .var _ _ | .assign _ _ _ | .unary _ _ _ | .binary _ _ _ _ | .call _ _ _ => rfl

mutual

/-- Operators are those of the table, and constants are integers or booleans. -/
def WellFormed : Expr → Prop
  | .literal value _ => value.type.IsWord
  | .var _ _ => True
  | .group inner _ => inner.WellFormed
  | .assign target value _ => target.WellFormed ∧ value.WellFormed
  | .unary _ operand _ => operand.WellFormed
  | .binary op left right _ => (∀ code, op ≠ .unknown code) ∧ left.WellFormed ∧ right.WellFormed
  | .call callee args _ => callee.WellFormed ∧ WellFormedAll args

def WellFormedAll : List Expr → Prop
  | [] => True
  | e :: rest => e.WellFormed ∧ WellFormedAll rest

end

end Expr

namespace Value

variable {v left right : Value} {type : Datatype} {w a b : Int64}

/-- A constant is the word it is lowered to. -/
theorem is_ofLiteral_of_isWord {l : Literal} (h : l.type.IsWord) :
    (ofLiteral l).Is l.word l.isUnsigned (l.type == .boolean) := by
  cases l with
  | int | uint | bool => exact is_ofLiteral trivial
  | foreign type v b =>
    obtain ⟨hknown, hvoid⟩ := h
    cases type with
    | empty | other => cases hknown
    | void => exact absurd rfl hvoid
    | uint64 => exact ⟨by simp [ofLiteral, word?, Literal.word], rfl, rfl⟩
    | boolean | int8 | int16 | int32 | int64 | uint8 | uint16 | uint32 => exact ⟨rfl, rfl, rfl⟩

theorem Normal.holds (h : v.Normal type) (htype : type.IsWord) (hword : v.word? = some w) :
    v.Holds type w := by
  refine ⟨?_, htype⟩
  obtain ⟨hknown, hvoid⟩ := htype
  cases type with
  | empty | other => cases hknown
  | void => exact absurd rfl hvoid
  | boolean =>
    obtain ⟨b, rfl⟩ := h
    exact ⟨hword, rfl, rfl⟩
  | uint64 =>
    obtain ⟨n, rfl⟩ := h
    exact ⟨hword, rfl, rfl⟩
  | int8 | int16 | int32 | int64 | uint8 | uint16 | uint32 =>
    obtain ⟨n, rfl, _⟩ := h rfl
    exact ⟨hword, rfl, rfl⟩

theorem normal_narrow (htype : type.IsWord) (hword : v.word? = some w) :
    (v.narrow type).Normal type := by
  refine (word?_eq_none_or_normal_narrow type v).resolve_left ?_
  rw [(holds_narrow htype hword).word_eq]
  exact nofun

theorem exists_negate? (h : v.word? = some w) : ∃ v', v.negate? = some v' := by
  cases v with
  | void | func => cases h
  | int | uint | bool => exact ⟨_, rfl⟩

/-- An operator of the table is defined on words, but for a division by zero. -/
theorem binary_cases {op : BinaryOp} (hop : ∀ code, op ≠ .unknown code)
    (hleft : left.word? = some a) (hright : right.word? = some b) (loc : Location) (m : Machine) :
    (∃ v, binary op left right loc m = .ok v m) ∨
      (op.isDivision ∧ b = 0 ∧
        binary op left right loc m = .error (.fault ⟨.divisionByZero, loc, []⟩) m) := by
  simp only [binary, hleft, hright]
  split
  · rename_i hzero
    exact .inr ⟨hzero.1, hzero.2, rfl⟩
  · left
    cases op with
    | unknown code => exact absurd rfl (hop code)
    | add | sub | mul | div | mod | eq | ne | lt | gt | le | ge => split <;> exact ⟨_, rfl⟩

end Value

namespace Exec

/-- Assigning changes one binding, and no name comes to mean another. -/
theorem findIn_assign (frames : Array Frame) (frame : Nat) (id : Int) (value : Value)
    (id' : Int) (scope : List Nat) :
    findIn (frames.modify frame (·.assign id value)) id' scope =
      (findIn frames id' scope).map fun x =>
        (x.1, if frame = x.1 ∧ id = id' then { x.2 with value } else x.2) := by
  induction scope with
  | nil => rfl
  | cons k rest ih =>
    have hframe : ((frames.modify frame (·.assign id value))[k]?.getD []).find? id' =
        ((frames[k]?.getD []).find? id').map fun b =>
          if frame = k ∧ id = id' then { b with value } else b := by
      rw [Array.getElem?_modify]
      by_cases hk : frame = k
      · cases frames[k]? <;> simp [hk, Frame.find?_assign]
      · simp [hk]
    simp only [findIn, hframe]
    cases (frames[k]?.getD []).find? id' with
    | some b => rfl
    | none => exact ih

end Exec

namespace Wat

/-- The instructions trap, whatever lies below what they take from the stack. -/
def Traps (calls : Calls) (rounds : Nat) (code : List Instr) (ins : List Operand) (s : Store) :
    Prop :=
  ∀ stack, Instr.runAll calls rounds code ⟨ins ++ stack, s⟩ = .error .trap

theorem runAll_append_of_error {calls : Calls} {rounds : Nat} {code more : List Instr} {st : State}
    {stop : Stop} (h : Instr.runAll calls rounds code st = .error stop) :
    Instr.runAll calls rounds (code ++ more) st = .error stop := by
  induction code generalizing st with
  | nil => cases h
  | cons i rest ih =>
    simp only [List.cons_append, Instr.runAll] at h ⊢
    cases hi : i.run calls rounds st with
    | error e =>
      rw [hi] at h
      exact h
    | ok r =>
      obtain ⟨ending, st₁⟩ := r
      rw [hi] at h
      cases ending with
      | next => exact ih h
      | branch l => cases h
      | returned v => cases h

namespace Traps

variable {calls : Calls} {rounds : Nat} {code more : List Instr} {s s' : Store}
  {ins outs : List Operand}

theorem append (h : Traps calls rounds code ins s) (more : List Instr) :
    Traps calls rounds (code ++ more) ins s := fun stack => runAll_append_of_error (h stack)

theorem after (h : Takes calls rounds code ins s outs s') (h' : Traps calls rounds more outs s') :
    Traps calls rounds (code ++ more) ins s :=
  fun stack => (runAll_append_of_next (h stack)).trans (h' stack)

theorem push (h : Traps calls rounds code [] s) (below : List Operand) :
    Traps calls rounds code below s := fun stack => h (below ++ stack)

/-- A division by zero has no result, with a sign or without. -/
theorem division {op : BinaryOp} (hop : op.isDivision) (unsigned : Bool) (a : Int64) :
    Traps calls rounds (if unsigned then unsignedOp op else signedOp op) [.i64 0, .i64 a] s := by
  intro stack
  cases op with
  | div | mod => cases unsigned <;> rfl
  | add | sub | mul | eq | ne | lt | gt | le | ge | unknown => cases hop

end Traps

namespace Store

/-- The word that is kept at a place. -/
def word? (s : Store) : Place → Option Int64
  | .local x => s.locals x
  | .global id => s.globals id

theorem has_of_word? {s : Store} {place : Place} {w : Int64} (h : s.word? place = some w) :
    s.Has place := by
  cases place <;> exact Option.isSome_of_eq_some h

theorem word?_put (s : Store) (place : Place) (w : Int64) (place' : Place) :
    (s.put place w).word? place' = if place' = place then some w else s.word? place' := by
  cases place <;> cases place' <;> simp [put, word?, setLocal, setGlobal]

end Store

theorem Takes.get {calls : Calls} {rounds : Nat} {s : Store} {place : Place} {w : Int64}
    (h : s.word? place = some w) : Takes calls rounds [place.get] [] s [.i64 w] s := by
  cases place with
  | «local» x => exact Takes.localGet h
  | «global» id => exact Takes.globalGet h

/-- A variable has the same value, which one of its type can have, when the program runs and where
it is kept after lowering. It is bound in the frame `home`. -/
structure Variable (scope : List Nat) (m : Machine) (s : Store) (id : Int) (slot : Slot)
    (home : Nat) (b : Binding) (w : Int64) : Prop where
  isWord : slot.type.IsWord
  find_eq : findIn m.frames id scope = some (home, b)
  type_eq : b.type = slot.type
  normal : b.value.Normal slot.type
  word_eq : b.value.word? = some w
  kept : s.word? slot.place = some w

/-- The variables of the given names have the same values when the program runs and after it is
lowered. The names are resolved in a view, and are bound in the frames `home`. -/
def Corresponds (v : View) (vars : List Int) (home : Int → Nat) (scope : List Nat) (m : Machine)
    (s : Store) : Prop :=
  ∀ id ∈ vars, ∃ slot b w, v.lookup id = some slot ∧ Variable scope m s id slot (home id) b w

/-- Different variables are kept at different places. -/
def View.Separates (v : View) (vars : List Int) : Prop :=
  ∀ id ∈ vars, ∀ id' ∈ vars, ∀ slot slot', v.lookup id = some slot → v.lookup id' = some slot' →
    slot.place = slot'.place → id = id'

/-- A variable that is assigned in both has the same value again, and so has every other. -/
theorem Corresponds.assign {v : View} {vars : List Int} {home : Int → Nat} {scope : List Nat}
    {m : Machine} {s : Store} (h : Corresponds v vars home scope m s)
    (hseparates : v.Separates vars) {id : Int} {slot : Slot} (hid : id ∈ vars)
    (hslot : v.lookup id = some slot) {value : Value} {w : Int64}
    (hword : value.word? = some w) :
    Corresponds v vars home scope
      { m with frames := m.frames.modify (home id) (·.assign id (value.narrow slot.type)) }
      (s.put slot.place (slot.type.narrow w)) := by
  intro id' hid'
  obtain ⟨slot', b', w', hslot', hvar⟩ := h id' hid'
  by_cases hsame : id = id'
  · subst hsame
    cases hslot.symm.trans hslot'
    refine ⟨slot, { b' with value := value.narrow slot.type }, slot.type.narrow w, hslot,
      hvar.isWord, ?_, hvar.type_eq, Value.normal_narrow hvar.isWord hword,
      (Value.holds_narrow hvar.isWord hword).word_eq, ?_⟩
    · simp [findIn_assign, hvar.find_eq]
    · rw [Store.word?_put, if_pos rfl]
  · refine ⟨slot', b', w', hslot', hvar.isWord, ?_, hvar.type_eq, hvar.normal, hvar.word_eq, ?_⟩
    · simp [findIn_assign, hvar.find_eq, hsame]
    · have hplace : slot'.place ≠ slot.place := fun heq =>
        hsame (hseparates id hid id' hid' slot slot' hslot hslot' heq.symm)
      rw [Store.word?_put, if_neg hplace, hvar.kept]

/-- The instructions of an expression do what its evaluation does: they leave the word of the value,
which is a boolean or unsigned as the form of the expression tells, and the variables correspond
again. Where the evaluation stops they trap, and what stops it is a division by zero. -/
def Mimics (v : View) (vars : List Int) (home : Int → Nat) (scope : List Nat) (calls : Calls)
    (rounds : Nat) (e : Expr) (code : List Instr) (s : Store) :
    EStateM.Result Halt Machine Value → Prop
  | .ok value m' => ∃ w s', Takes calls rounds code [] s [.i64 w] s' ∧
      value.Is w (v.isUnsigned e) (v.isBool e) ∧ Corresponds v vars home scope m' s'
  | .error h _ => (∃ loc, h = .fault ⟨.divisionByZero, loc, []⟩) ∧ Traps calls rounds code [] s

section

variable {v : View} {vars : List Int} {home : Int → Nat} {scope : List Nat} {setting : Setting}
  {invoke : Invoke} {course : CallCourse}

namespace Mimics

variable {calls : Calls} {rounds : Nat} {e e' : Expr} {before code : List Instr} {s s₁ : Store}
  {outs : List Operand} {p : Exec Value} {k : Value → Exec Value} {m : Machine}

/-- An operand is evaluated after what has left `outs` on the stack. If it stops, the whole stops. -/
theorem bind_after (h : Mimics v vars home scope calls rounds e code s₁ (p m))
    (hbefore : Takes calls rounds before [] s outs s₁) (more : List Instr)
    (hk : ∀ value m' w s', p m = .ok value m' →
      Takes calls rounds (before ++ code) [] s (.i64 w :: outs) s' →
      value.Is w (v.isUnsigned e) (v.isBool e) → Corresponds v vars home scope m' s' →
      Mimics v vars home scope calls rounds e' (before ++ code ++ more) s (k value m')) :
    Mimics v vars home scope calls rounds e' (before ++ code ++ more) s ((p >>= k) m) := by
  cases hrun : p m with
  | error halt m' =>
    rw [hrun] at h
    rw [bind_of_error hrun]
    obtain ⟨hzero, htraps⟩ := h
    exact ⟨hzero, (Traps.after hbefore (htraps.push outs)).append more⟩
  | ok value m' =>
    rw [hrun] at h
    rw [bind_of_ok hrun]
    obtain ⟨w, s', htakes, his, hvars⟩ := h
    exact hk value m' w s' hrun (hbefore.append (htakes.push outs)) his hvars

theorem bind (h : Mimics v vars home scope calls rounds e code s (p m)) (more : List Instr)
    (hk : ∀ value m' w s', p m = .ok value m' → Takes calls rounds code [] s [.i64 w] s' →
      value.Is w (v.isUnsigned e) (v.isBool e) → Corresponds v vars home scope m' s' →
      Mimics v vars home scope calls rounds e' (code ++ more) s (k value m')) :
    Mimics v vars home scope calls rounds e' (code ++ more) s ((p >>= k) m) :=
  h.bind_after Takes.nil more hk

/-- An operator is applied to the operands that are on the stack. -/
theorem operator {op : BinaryOp} {left right : Expr} {loc : Location} {a b : Value}
    {w₁ w₂ : Int64} (hop : ∀ code, op ≠ .unknown code)
    (hoperands : Takes calls rounds code [] s [.i64 w₂, .i64 w₁] s₁)
    (ha : a.Is w₁ (v.isUnsigned left) (v.isBool left))
    (hb : b.Is w₂ (v.isUnsigned right) (v.isBool right))
    (hvars : Corresponds v vars home scope m s₁) (hover : ¬(Moment.applied op a b).Overflows) :
    Mimics v vars home scope calls rounds (.binary op left right loc)
      (code ++ if v.isUnsigned left || v.isUnsigned right then unsignedOp op else signedOp op) s
      (Value.binary op a b loc m) := by
  rcases Value.binary_cases hop ha.word_eq hb.word_eq loc m with
    ⟨value, hrun⟩ | ⟨hdivision, rfl, hrun⟩
  · obtain ⟨_, w, htakes, his⟩ := takes_binary ha.word_eq hb.word_eq hover hrun
    rw [hrun]
    rw [ha.unsigned_eq, hb.unsigned_eq] at htakes his
    exact ⟨w, s₁, hoperands.append (htakes _ _ _), his, hvars⟩
  · rw [hrun]
    exact ⟨⟨loc, rfl⟩, Traps.after hoperands (Traps.division hdivision _ w₁)⟩

/-- What is on the stack is narrowed to the type of a variable, which is set to it. -/
theorem store (hseparates : v.Separates vars) {target value : Expr} {loc at' : Location} {id : Int}
    {slot : Slot} {a : Value} {w : Int64} (htarget : target.unparen = .var id at')
    (hid : id ∈ vars) (hslot : v.lookup id = some slot)
    (htakes : Takes calls rounds code [] s [.i64 w] s₁) (hword : a.word? = some w)
    (hvars : Corresponds v vars home scope m s₁) :
    Mimics v vars home scope calls rounds (.assign target value loc)
      (code ++ (narrowing slot.type ++ slot.place.tee)) s (.ok (a.narrow slot.type)
        { m with frames := m.frames.modify (home id) (·.assign id (a.narrow slot.type)) }) := by
  obtain ⟨_, b, w', hslot', hvar⟩ := hvars id hid
  cases hslot.symm.trans hslot'
  refine ⟨slot.type.narrow w, s₁.put slot.place (slot.type.narrow w), ?_, ?_,
    hvars.assign hseparates hid hslot hword⟩
  · exact htakes.append ((Takes.narrowing slot.type w).append
      (Takes.tee (Store.has_of_word? hvar.kept)))
  · simpa only [View.isUnsigned, View.isBool, htarget, View.isVariableOf, hslot] using
      (Value.holds_narrow hvar.isWord hword).toIs

end Mimics

theorem mimics_eval (calls : Calls) (rounds : Nat) (hseparates : v.Separates vars) {m : Machine}
    {s : Store} :
    {e : Expr} → {code : List Instr} → lowerExpr v e = .ok code → e.callees = [] → e.WellFormed →
    (∀ id ∈ e.names, id ∈ vars) → Corresponds v vars home scope m s →
    (∀ x ∈ e.course setting invoke course scope m, ¬x.Overflows) →
    Mimics v vars home scope calls rounds e code s (e.eval setting invoke scope m)
  | .literal value loc, code, hcode, hquiet, hformed, hnames, hvars, havoid => by
    cases hcode
    exact ⟨_, s, Takes.const _, Value.is_ofLiteral_of_isWord hformed, hvars⟩
  | .var id loc, code, hcode, hquiet, hformed, hnames, hvars, havoid => by
    simp only [lowerExpr] at hcode
    obtain ⟨slot, hresolve, hcode⟩ := Except.bind_eq_ok.1 hcode
    cases hcode
    obtain ⟨slot', b, w, hslot, hvar⟩ := hvars id (hnames id (List.mem_singleton_self _))
    cases (View.lookup_of_resolve hresolve).symm.trans hslot
    rw [Expr.eval, bind_of_ok (lookup_of_findIn setting hvar.find_eq loc)]
    refine ⟨w, s, Takes.get hvar.kept, ?_, hvars⟩
    simpa only [View.isUnsigned, View.isBool, View.isVariableOf, hslot] using
      (hvar.normal.holds hvar.isWord hvar.word_eq).toIs
  | .group inner loc, code, hcode, hquiet, hformed, hnames, hvars, havoid => by
    rw [Expr.course] at havoid
    simp only [lowerExpr] at hcode
    have hinner := mimics_eval (e := inner) calls rounds hseparates hcode hquiet hformed hnames
      hvars (List.forall_mem_cons.1 havoid).2
    exact hinner
  | .assign target value loc, code, hcode, hquiet, hformed, hnames, hvars, havoid => by
    simp only [lowerExpr] at hcode
    split at hcode
    · rename_i id at' htarget
      obtain ⟨slot, hresolve, hcode⟩ := Except.bind_eq_ok.1 hcode
      obtain ⟨inner, hinner, hcode⟩ := Except.bind_eq_ok.1 hcode
      cases hcode
      rw [Expr.names, List.forall_mem_append] at hnames
      have hid : id ∈ vars := by
        refine hnames.1 id ?_
        rw [← Expr.names_unparen, htarget]
        exact List.mem_singleton_self id
      obtain ⟨slot', b, w₀, hslot, hvar⟩ := hvars id hid
      cases (View.lookup_of_resolve hresolve).symm.trans hslot
      have hlookup := lookup_of_findIn setting hvar.find_eq at'
      simp only [Expr.course, htarget, entering, after, andThen, hlookup] at havoid
      have ih := mimics_eval calls rounds hseparates hinner (List.append_eq_nil_iff.1 hquiet).2
        hformed.2 hnames.2 hvars (List.forall_mem_cons.1 havoid).2
      simp only [Expr.eval, htarget]
      rw [bind_of_ok hlookup, List.append_assoc]
      refine ih.bind _ fun value' m' w s' _ htakes his hvars' => ?_
      rw [hvar.type_eq]
      exact Mimics.store hseparates htarget hid hslot htakes his.word_eq hvars'
    · cases hcode
  | .unary .neg operand loc, code, hcode, hquiet, hformed, hnames, hvars, havoid => by
    rw [Expr.course] at havoid
    simp only [lowerExpr] at hcode
    obtain ⟨inner, hinner, hcode⟩ := Except.bind_eq_ok.1 hcode
    cases hcode
    have ih := mimics_eval calls rounds hseparates hinner hquiet hformed hnames hvars
      (List.forall_mem_cons.1 havoid).2
    rw [Expr.eval]
    refine ih.bind_after (Takes.const 0) _ fun value m' w s' _ htakes his hvars' => ?_
    obtain ⟨value', hnegate⟩ := Value.exists_negate? his.word_eq
    simp only [Value.unary, hnegate]
    exact ⟨0 - w, s', htakes.append (Takes.combine rfl),
      his.unsigned_eq ▸ Value.is_negate? his.word_eq hnegate, hvars'⟩
  | .unary .not operand loc, code, hcode, hquiet, hformed, hnames, hvars, havoid => by
    rw [Expr.course] at havoid
    simp only [lowerExpr] at hcode
    obtain ⟨inner, hinner, hcode⟩ := Except.bind_eq_ok.1 hcode
    cases hcode
    have ih := mimics_eval calls rounds hseparates hinner hquiet hformed hnames hvars
      (List.forall_mem_cons.1 havoid).2
    rw [Expr.eval]
    refine ih.bind _ fun value m' w s' _ htakes his hvars' => ?_
    exact ⟨_, s', htakes.append (Takes.not w), Value.is_not his.word_eq, hvars'⟩
  | .binary op left right loc, code, hcode, hquiet, hformed, hnames, hvars, havoid => by
    simp only [lowerExpr] at hcode
    obtain ⟨inner₁, hinner₁, hcode⟩ := Except.bind_eq_ok.1 hcode
    obtain ⟨inner₂, hinner₂, hcode⟩ := Except.bind_eq_ok.1 hcode
    cases hcode
    obtain ⟨hop, hformed₁, hformed₂⟩ := hformed
    rw [Expr.names, List.forall_mem_append] at hnames
    obtain ⟨hquiet₁, hquiet₂⟩ := List.append_eq_nil_iff.1 hquiet
    simp only [Expr.course, entering, andThen, List.forall_mem_cons,
      List.forall_mem_append] at havoid
    obtain ⟨_, havoid₁, havoid⟩ := havoid
    have ih₁ := mimics_eval calls rounds hseparates hinner₁ hquiet₁ hformed₁ hnames.1 hvars havoid₁
    rw [Expr.eval, List.append_assoc]
    refine ih₁.bind _ fun value₁ m₁ w₁ s₁ hrun₁ htakes₁ his₁ hvars₁ => ?_
    simp only [hrun₁, List.forall_mem_append] at havoid
    have ih₂ :=
      mimics_eval calls rounds hseparates hinner₂ hquiet₂ hformed₂ hnames.2 hvars₁ havoid.1
    rw [← List.append_assoc]
    refine ih₂.bind_after htakes₁ _ fun value₂ m₂ w₂ s₂ hrun₂ hoperands his₂ hvars₂ => ?_
    simp only [hrun₂, List.forall_mem_singleton] at havoid
    exact Mimics.operator hop hoperands his₁ his₂ hvars₂ havoid.2
  | .call callee args loc, code, hcode, hquiet, hformed, hnames, hvars, havoid => by
    cases hquiet

/-- An expression that calls nothing does the same after it is lowered, from every stack. If it has
a value, its instructions leave the word of the value above what was on the stack, every variable
has the same value in the machine and in the store again, and the form of the expression tells how
the word is to be printed. If it has none, since something is divided by zero, they trap. The least
signed word must not be divided by -1, which has no signed quotient. -/
theorem runAll_lowerExpr {e : Expr} {code : List Instr} {m : Machine} {s : Store}
    (hcode : lowerExpr v e = .ok code) (hquiet : e.callees = []) (hformed : e.WellFormed)
    (hnames : ∀ id ∈ e.names, id ∈ vars) (hseparates : v.Separates vars)
    (hvars : Corresponds v vars home scope m s)
    (havoid : ∀ x ∈ e.course setting invoke course scope m, ¬x.Overflows) (calls : Calls)
    (rounds : Nat) :
    match e.eval setting invoke scope m with
    | .ok value m' => ∃ w s',
        value.word? = some w ∧
        (∀ stack, Instr.runAll calls rounds code ⟨stack, s⟩ = .ok (.next, ⟨.i64 w :: stack, s'⟩)) ∧
        Corresponds v vars home scope m' s' ∧
        v.isBool e = value.isBool ∧ v.isUnsigned e = value.isUnsigned ∧
        ∀ stack s, hostCall (v.printer e) ⟨.i64 w :: stack, s⟩ =
          .ok ⟨stack, { s with output := s.output ++ value.render }⟩
    | .error h _ =>
        (∃ loc, h = .fault ⟨.divisionByZero, loc, []⟩) ∧
        ∀ stack, Instr.runAll calls rounds code ⟨stack, s⟩ = .error .trap := by
  have h := mimics_eval calls rounds hseparates hcode hquiet hformed hnames hvars havoid
  cases hrun : e.eval setting invoke scope m with
  | ok value m' =>
    rw [hrun] at h
    obtain ⟨w, s', htakes, his, hvars'⟩ := h
    exact ⟨w, s', his.word_eq, htakes, hvars', his.bool_eq.symm, his.unsigned_eq.symm,
      hostCall_printer his⟩
  | error halt m' =>
    rw [hrun] at h
    exact h

/-- A signed word becomes unsigned on the way through a variable, and a signed one again. -/
theorem runAll_lowerExpr_mixed :
    let e : Expr := .assign (.var 0 .none) (.binary .div (.assign (.var 1 .none)
      (.binary .sub (.var 0 .none) (.literal (.int 1) .none) .none) .none)
      (.literal (.int 2) .none) .none) .none
    let v : View := ⟨⟨.empty, [], []⟩, .start,
      [[(0, ⟨.local (.temp 0), .int8⟩)], [(1, ⟨.global 1, .uint64⟩)]]⟩
    let m : Machine := ⟨#[[(1, ⟨.uint 5, .uint64⟩)], [(0, ⟨.int 0, .int8⟩)]], "", []⟩
    let s : Store :=
      ⟨fun x => if x = .temp 0 then some 0 else none, fun id => if id = 1 then some 5 else none, ""⟩
    let code : List Instr := [.localGet (.temp 0), .const 1, .num .sub, .globalSet 1, .globalGet 1,
      .const 2, .num .divU, .num .extend8S, .localTee (.temp 0)]
    let home : Int → Nat := fun id => if id = 0 then 1 else 0
    let m' : Machine :=
      ⟨#[[(1, ⟨.uint 18446744073709551615, .uint64⟩)], [(0, ⟨.int (-1), .int8⟩)]], "", []⟩
    lowerExpr v e = .ok code ∧
      e.eval ⟨.empty, 0, false, none⟩ (fun _ _ _ => return .void) [1, 0] m = .ok (.int (-1)) m' ∧
      ∃ s', (∀ stack, Instr.runAll (fun _ _ => .error .stuck) 0 code ⟨stack, s⟩ =
        .ok (.next, ⟨.i64 (-1) :: stack, s'⟩)) ∧ Corresponds v [0, 1] home [1, 0] m' s' := by
  intro e v m s code home m'
  have hvars : Corresponds v [0, 1] home [1, 0] m s := by
    refine List.forall_mem_cons.2 ⟨?_, List.forall_mem_singleton.2 ?_⟩
    · exact ⟨⟨.local (.temp 0), .int8⟩, ⟨.int 0, .int8⟩, 0, rfl, ⟨⟨rfl, nofun⟩, rfl, rfl,
        fun _ => ⟨0, rfl, rfl⟩, rfl, rfl⟩⟩
    · exact ⟨⟨.global 1, .uint64⟩, ⟨.uint 5, .uint64⟩, 5, rfl, ⟨⟨rfl, nofun⟩, rfl, rfl, ⟨5, rfl⟩,
        rfl, rfl⟩⟩
  have hseparates : v.Separates [0, 1] := by
    intro id hid id' hid' slot slot' hslot hslot' hplace
    simp only [List.mem_cons, List.not_mem_nil, or_false] at hid hid'
    rcases hid with rfl | rfl <;> rcases hid' with rfl | rfl <;> cases hslot <;> cases hslot' <;>
      first | rfl | cases hplace
  have hformed : e.WellFormed := ⟨trivial, nofun, ⟨trivial, nofun, trivial, rfl, nofun⟩, rfl, nofun⟩
  have havoid : ∀ x ∈ e.course ⟨.empty, 0, false, none⟩ (fun _ _ _ => return .void)
      (fun _ _ => Course.nothing) [1, 0] m, ¬x.Overflows := by decide +kernel
  have heval : e.eval ⟨.empty, 0, false, none⟩ (fun _ _ _ => return .void) [1, 0] m =
      .ok (.int (-1)) m' := rfl
  have h := runAll_lowerExpr (v := v) rfl rfl hformed (by decide) hseparates hvars havoid
    (fun _ _ => .error .stuck) 0
  rw [heval] at h
  obtain ⟨w, s', hword, hrun, hvars', _⟩ := h
  cases hword
  exact ⟨rfl, rfl, s', hrun, hvars'⟩

end

end Wat

end Ember
