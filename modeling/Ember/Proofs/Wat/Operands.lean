import Ember.Proofs.Fold.Run
import Ember.Proofs.Run.Ends
import Ember.Proofs.Wat.Execution
import Ember.Wat.Lower

namespace Ember

namespace Value

def isBool : Value → Bool
  | bool _ => true
  | _ => false

/-- The value is a word, unsigned or a boolean as told. -/
structure Is (v : Value) (w : Int64) (unsigned boolean : Bool) : Prop where
  word_eq : v.word? = some w
  unsigned_eq : v.isUnsigned = unsigned
  bool_eq : v.isBool = boolean

end Value

/-- Values of the type are words. -/
def Datatype.IsWord (type : Datatype) : Prop := type.keyword?.isSome ∧ type ≠ .void

/-- The value is the word that stands for it in a variable of the type. -/
structure Value.Holds (v : Value) (type : Datatype) (w : Int64) : Prop
    extends v.Is w (type == .uint64) (type == .boolean) where
  isWord : type.IsWord

namespace Wat

/-- The instructions take `ins` from the stack and leave `outs` there, whatever lies below. -/
def Takes (calls : Calls) (rounds : Nat) (code : List Instr) (ins : List Operand) (s : Store)
    (outs : List Operand) (s' : Store) : Prop :=
  ∀ stack, Instr.runAll calls rounds code ⟨ins ++ stack, s⟩ = .ok (.next, ⟨outs ++ stack, s'⟩)

section

variable {calls : Calls} {rounds : Nat} {code more : List Instr} {s s' s'' : Store}
  {ins outs outs' : List Operand}

theorem runAll_append_of_next {st st' : State}
    (h : Instr.runAll calls rounds code st = .ok (.next, st')) :
    Instr.runAll calls rounds (code ++ more) st = Instr.runAll calls rounds more st' := by
  induction code generalizing st with
  | nil =>
    cases h
    rfl
  | cons i rest ih =>
    simp only [List.cons_append, Instr.runAll] at h ⊢
    cases hi : i.run calls rounds st with
    | error e =>
      rw [hi] at h
      cases h
    | ok r =>
      obtain ⟨ending, st₁⟩ := r
      rw [hi] at h
      cases ending with
      | next => exact ih h
      | branch l => cases h
      | returned v => cases h

theorem runAll_append_of_ended {st st' : State} {ending : Ending} (hne : ending ≠ .next)
    (h : Instr.runAll calls rounds code st = .ok (ending, st')) :
    Instr.runAll calls rounds (code ++ more) st = .ok (ending, st') := by
  induction code generalizing st with
  | nil =>
    cases h
    exact absurd rfl hne
  | cons i rest ih =>
    simp only [List.cons_append, Instr.runAll] at h ⊢
    cases hi : i.run calls rounds st with
    | error e =>
      rw [hi] at h
      cases h
    | ok r =>
      obtain ⟨ending', st₁⟩ := r
      rw [hi] at h
      cases ending' with
      | next => exact ih h
      | branch l => exact h
      | returned v => exact h

theorem runAll_singleton {i : Instr} {st : State} {r : Ending × State}
    (h : i.run calls rounds st = .ok r) : Instr.runAll calls rounds [i] st = .ok r := by
  obtain ⟨ending, st'⟩ := r
  simp only [Instr.runAll, h]
  cases ending <;> rfl

namespace Takes

theorem nil : Takes calls rounds [] ins s ins s := fun _ => rfl

theorem run_eq (h : Takes calls rounds code ins s outs s') :
    Instr.runAll calls rounds code ⟨ins, s⟩ = .ok (.next, ⟨outs, s'⟩) := by
  simpa using h []

theorem append (h : Takes calls rounds code ins s outs s')
    (h' : Takes calls rounds more outs s' outs' s'') :
    Takes calls rounds (code ++ more) ins s outs' s'' :=
  fun stack => (runAll_append_of_next (h stack)).trans (h' stack)

/-- Operands below are left alone. -/
theorem frame (h : Takes calls rounds code ins s outs s') (below : List Operand) :
    Takes calls rounds code (ins ++ below) s (outs ++ below) s' := by
  intro stack
  rw [List.append_assoc, List.append_assoc]
  exact h (below ++ stack)

/-- What leaves operands of its own leaves them above those that are there. -/
theorem push (h : Takes calls rounds code [] s outs s') (below : List Operand) :
    Takes calls rounds code below s (outs ++ below) s' :=
  h.frame below

theorem of_run {i : Instr} (h : ∀ stack, i.run calls rounds ⟨ins ++ stack, s⟩ =
    .ok (.next, ⟨outs ++ stack, s'⟩)) : Takes calls rounds [i] ins s outs s' :=
  fun stack => runAll_singleton (h stack)

theorem const (v : Int64) : Takes calls rounds [.const v] [] s [.i64 v] s := of_run fun _ => rfl

theorem drop (x : Operand) : Takes calls rounds [.drop] [x] s [] s := of_run fun _ => rfl

theorem num {op : NumOp} (h : ∀ stack, op.run (ins ++ stack) = .ok (outs ++ stack)) :
    Takes calls rounds [.num op] ins s outs s :=
  of_run fun stack => by
    simp only [Instr.run, h]
    rfl

theorem localGet {x : Local} {w : Int64} (h : s.locals x = some w) :
    Takes calls rounds [.localGet x] [] s [.i64 w] s :=
  of_run fun _ => by
    simp only [Instr.run, h]
    rfl

theorem globalGet {id : Int} {w : Int64} (h : s.globals id = some w) :
    Takes calls rounds [.globalGet id] [] s [.i64 w] s :=
  of_run fun _ => by
    simp only [Instr.run, h]
    rfl

theorem localSet {x : Local} {w : Int64} (h : (s.locals x).isSome) :
    Takes calls rounds [.localSet x] [.i64 w] s [] (s.setLocal x w) := by
  obtain ⟨old, hold⟩ := Option.isSome_iff_exists.1 h
  exact of_run fun _ => by simp only [Instr.run, hold, List.cons_append, List.nil_append]

theorem localTee {x : Local} {w : Int64} (h : (s.locals x).isSome) :
    Takes calls rounds [.localTee x] [.i64 w] s [.i64 w] (s.setLocal x w) := by
  obtain ⟨old, hold⟩ := Option.isSome_iff_exists.1 h
  exact of_run fun _ => by simp only [Instr.run, hold, List.cons_append, List.nil_append]

theorem globalSet {id : Int} {w : Int64} (h : (s.globals id).isSome) :
    Takes calls rounds [.globalSet id] [.i64 w] s [] (s.setGlobal id w) := by
  obtain ⟨old, hold⟩ := Option.isSome_iff_exists.1 h
  exact of_run fun _ => by simp only [Instr.run, hold, List.cons_append, List.nil_append]

theorem extend (b : Bool) :
    Takes calls rounds [.num .extendI32U] [.truth b] s [.i64 (if b then 1 else 0)] s :=
  num fun stack => by cases b <;> rfl

/-- A word is replaced by whether it is zero. -/
theorem not (w : Int64) :
    Takes calls rounds [.num .eqz, .num .extendI32U] [.i64 w] s [.i64 (if w == 0 then 1 else 0)]
      s := by
  have heqz : Takes calls rounds [.num .eqz] [.i64 w] s [.truth (w == 0)] s := num fun _ => rfl
  exact heqz.append (extend _)

theorem combine {op : NumOp} {a b : Int64} {x : Operand} (h : op.combine a b = .ok x) :
    Takes calls rounds [.num op] [.i64 b, .i64 a] s [x] s :=
  num fun stack => by
    have hrun : op.run (.i64 b :: .i64 a :: stack) = (do return (← op.combine a b) :: stack) := by
      cases op with
      | eqz | extendI32U | extend8S | extend16S | extend32S => cases h
      | _ => rfl
    rw [List.cons_append, List.cons_append, List.nil_append, hrun, h]
    rfl

/-- A comparison leaves 1 or 0. -/
theorem comparison {op : NumOp} {a b : Int64} {holds : Bool}
    (h : op.combine a b = .ok (.truth holds)) :
    Takes calls rounds (Wat.comparison op) [.i64 b, .i64 a] s [.i64 (if holds then 1 else 0)] s :=
  (combine h).append (extend holds)

end Takes

end

theorem toUInt64_inj {a b : Int64} : a.toUInt64 = b.toUInt64 ↔ a = b := by
  refine ⟨fun h => ?_, congrArg _⟩
  cases a
  cases b
  exact congrArg Int64.ofUInt64 h

theorem and_255 (w : Int64) : w &&& 255 = w.toUInt64.toUInt8.toUInt64.toInt64 := by
  apply Int64.toBitVec_inj.1
  apply BitVec.eq_of_toNat_eq
  simpa using Nat.and_two_pow_sub_one_eq_mod w.toBitVec.toNat 8

theorem and_65535 (w : Int64) : w &&& 65535 = w.toUInt64.toUInt16.toUInt64.toInt64 := by
  apply Int64.toBitVec_inj.1
  apply BitVec.eq_of_toNat_eq
  simpa using Nat.and_two_pow_sub_one_eq_mod w.toBitVec.toNat 16

theorem and_4294967295 (w : Int64) :
    w &&& 4294967295 = w.toUInt64.toUInt32.toUInt64.toInt64 := by
  apply Int64.toBitVec_inj.1
  apply BitVec.eq_of_toNat_eq
  simpa using Nat.and_two_pow_sub_one_eq_mod w.toBitVec.toNat 32

/-- Narrowing leaves the word that the type keeps. -/
theorem Takes.narrowing {calls : Calls} {rounds : Nat} {s : Store} (type : Datatype) (w : Int64) :
    Takes calls rounds (Wat.narrowing type) [.i64 w] s [.i64 (type.narrow w)] s := by
  have hmask : ∀ mask, Takes calls rounds [.const mask, .num .and] [.i64 w] s [.i64 (w &&& mask)] s :=
    fun mask => ((Takes.const mask).push _).append (combine rfl)
  cases type with
  | boolean =>
    have hne : Takes calls rounds (Instr.const 0 :: Wat.comparison .ne) [.i64 w] s
        [.i64 (if w != 0 then 1 else 0)] s := ((Takes.const 0).push _).append (comparison rfl)
    have hword : (if w != 0 then 1 else 0 : Int64) = Datatype.narrow .boolean w := by
      by_cases h : w = 0 <;> simp [Datatype.narrow, h]
    rw [← hword]
    exact hne
  | int8 | int16 | int32 => exact Takes.num fun _ => rfl
  | uint8 =>
    rw [Datatype.narrow, ← and_255]
    exact hmask 255
  | uint16 =>
    rw [Datatype.narrow, ← and_65535]
    exact hmask 65535
  | uint32 =>
    rw [Datatype.narrow, ← and_4294967295]
    exact hmask 4294967295
  | empty | void | int64 | uint64 | other => exact Takes.nil

/-- An operator on signed words does what it does with values, where the division has a result. -/
theorem takes_signedOp {op : BinaryOp} {a b : Int64} {v : Value}
    (hv : Value.signed? op a b = some v) (hzero : ¬(op.isDivision ∧ b = 0))
    (hover : ¬(op = .div ∧ a = Int64.minValue ∧ b = -1)) :
    ∃ w, (∀ calls rounds s,
        Takes calls rounds (signedOp op) [.i64 b, .i64 a] s [.i64 w] s) ∧
      v.Is w false op.isComparison := by
  cases op with
  | add | sub | mul =>
    cases hv
    exact ⟨_, fun _ _ _ => Takes.combine rfl, rfl, rfl, rfl⟩
  | div =>
    cases hv
    have hb : b ≠ 0 := fun h => hzero ⟨rfl, h⟩
    have hab : ¬(a = Int64.minValue ∧ b = -1) := fun h => hover ⟨rfl, h⟩
    refine ⟨a / b, fun _ _ _ => Takes.combine ?_, rfl, rfl, rfl⟩
    simp only [NumOp.combine, if_neg hb, if_neg hab]
  | mod =>
    cases hv
    have hb : b ≠ 0 := fun h => hzero ⟨rfl, h⟩
    refine ⟨a % b, fun _ _ _ => Takes.combine ?_, rfl, rfl, rfl⟩
    simp only [NumOp.combine, if_neg hb]
  | eq | ne | lt | gt | le | ge =>
    cases hv
    exact ⟨_, fun _ _ _ => Takes.comparison rfl, rfl, rfl, rfl⟩
  | unknown => cases hv

/-- An operator on unsigned words does what it does with values. -/
theorem takes_unsignedOp {op : BinaryOp} {a b : Int64} {v : Value}
    (hv : Value.unsigned? op a.toUInt64 b.toUInt64 = some v) (hzero : ¬(op.isDivision ∧ b = 0)) :
    ∃ w, (∀ calls rounds s,
        Takes calls rounds (unsignedOp op) [.i64 b, .i64 a] s [.i64 w] s) ∧
      v.Is w (!op.isComparison) op.isComparison := by
  cases op with
  | add =>
    cases hv
    exact ⟨a + b, fun _ _ _ => Takes.combine rfl, by simp [Value.word?], rfl, rfl⟩
  | sub =>
    cases hv
    exact ⟨a - b, fun _ _ _ => Takes.combine rfl, by simp [Value.word?], rfl, rfl⟩
  | mul =>
    cases hv
    exact ⟨a * b, fun _ _ _ => Takes.combine rfl, by simp [Value.word?], rfl, rfl⟩
  | div =>
    cases hv
    have hb : b ≠ 0 := fun h => hzero ⟨rfl, h⟩
    refine ⟨_, fun _ _ _ => Takes.combine ?_, rfl, rfl, rfl⟩
    simp only [NumOp.combine, if_neg hb]
  | mod =>
    cases hv
    have hb : b ≠ 0 := fun h => hzero ⟨rfl, h⟩
    refine ⟨_, fun _ _ _ => Takes.combine ?_, rfl, rfl, rfl⟩
    simp only [NumOp.combine, if_neg hb]
  | eq =>
    cases hv
    refine ⟨_, fun _ _ _ => Takes.comparison rfl, ?_, rfl, rfl⟩
    simp [Value.word?, toUInt64_inj]
  | ne =>
    cases hv
    refine ⟨_, fun _ _ _ => Takes.comparison rfl, ?_, rfl, rfl⟩
    simp [Value.word?, toUInt64_inj]
  | lt | gt | le | ge =>
    cases hv
    exact ⟨_, fun _ _ _ => Takes.comparison rfl, rfl, rfl, rfl⟩
  | unknown => cases hv

/-- An operator on values is what its instructions do with their words. -/
theorem takes_binary {op : BinaryOp} {left right v : Value} {a b : Int64} {loc : Location}
    {m m' : Machine} (hleft : left.word? = some a) (hright : right.word? = some b)
    (hover : ¬(Moment.applied op left right).Overflows)
    (hrun : Value.binary op left right loc m = .ok v m') :
    m' = m ∧ ∃ w, (∀ calls rounds s, Takes calls rounds
        (if left.isUnsigned || right.isUnsigned then unsignedOp op else signedOp op)
        [.i64 b, .i64 a] s [.i64 w] s) ∧
      v.Is w (!op.isComparison && (left.isUnsigned || right.isUnsigned)) op.isComparison := by
  simp only [Value.binary, hleft, hright] at hrun
  split at hrun
  · cases hrun
  · rename_i hzero
    cases hsign : left.isUnsigned || right.isUnsigned with
    | true =>
      simp only [hsign, if_true] at hrun
      cases hv : Value.unsigned? op a.toUInt64 b.toUInt64 with
      | some value =>
        rw [hv] at hrun
        cases hrun
        obtain ⟨w, htakes, his⟩ := takes_unsignedOp hv hzero
        exact ⟨rfl, w, htakes, by simpa using his⟩
      | none =>
        rw [hv] at hrun
        cases op <;> cases hrun
    | false =>
      simp only [hsign, Bool.false_eq_true, if_false] at hrun
      obtain ⟨hl, hr⟩ := Bool.or_eq_false_iff.1 hsign
      have hdiv : ¬(op = .div ∧ a = Int64.minValue ∧ b = -1) := by
        rintro ⟨rfl, rfl, rfl⟩
        exact hover ⟨rfl, hl, hr, hleft, hright⟩
      cases hv : Value.signed? op a b with
      | some value =>
        rw [hv] at hrun
        cases hrun
        obtain ⟨w, htakes, his⟩ := takes_signedOp hv hzero hdiv
        exact ⟨rfl, w, htakes, by simpa using his⟩
      | none =>
        rw [hv] at hrun
        cases op <;> cases hrun

end Wat

namespace Value

variable {v v' : Value} {w : Int64} {type : Datatype}

/-- A word is true if it is not zero. -/
theorem isTruthy_eq (h : v.word? = some w) : v.isTruthy = (w != 0) := by
  cases v with
  | void | func => cases h
  | int n =>
    cases h
    rfl
  | uint n =>
    cases h
    have hzero : n = 0 ↔ n.toInt64 = 0 := by rw [← Wat.toUInt64_inj, UInt64.toUInt64_toInt64]; rfl
    rw [isTruthy, bne, bne, Bool.not_inj_iff, Bool.eq_iff_iff, beq_iff_eq, beq_iff_eq]
    exact hzero
  | bool b => cases h; cases b <;> rfl

theorem is_not (h : v.word? = some w) :
    (bool (!v.isTruthy)).Is (if w == 0 then 1 else 0) false true := by
  refine ⟨?_, rfl, rfl⟩
  rw [isTruthy_eq h]
  by_cases hw : w = 0 <;> simp [word?, hw]

theorem is_negate? (h : v.word? = some w) (hnegate : v.negate? = some v') :
    v'.Is (0 - w) v.isUnsigned false := by
  cases v with
  | void | func => cases h
  | int n =>
    cases h
    cases hnegate
    exact ⟨by simp [word?], rfl, rfl⟩
  | uint n =>
    cases h
    cases hnegate
    exact ⟨by simp [word?], rfl, rfl⟩
  | bool b =>
    cases h
    cases hnegate
    cases b <;> exact ⟨rfl, rfl, rfl⟩

/-- A word that is narrowed to a type is what a variable of the type holds. -/
theorem holds_narrow (htype : type.IsWord) (h : v.word? = some w) :
    (v.narrow type).Holds type (type.narrow w) := by
  refine ⟨?_, htype⟩
  obtain ⟨hknown, hvoid⟩ := htype
  unfold narrow
  rw [h]
  cases type with
  | empty | other => cases hknown
  | void => exact absurd rfl hvoid
  | boolean => exact ⟨by by_cases hw : w = 0 <;> simp [word?, Datatype.narrow, hw], rfl, rfl⟩
  | uint64 => exact ⟨by simp [word?, Datatype.narrow], rfl, rfl⟩
  | int8 | int16 | int32 | int64 | uint8 | uint16 | uint32 => exact ⟨rfl, rfl, rfl⟩

theorem holds_zero (htype : type.IsWord) : (zero type).Holds type 0 := by
  refine ⟨?_, htype⟩
  obtain ⟨hknown, hvoid⟩ := htype
  cases type with
  | empty | other => cases hknown
  | void => exact absurd rfl hvoid
  | boolean | uint64 | int8 | int16 | int32 | int64 | uint8 | uint16 | uint32 =>
    exact ⟨rfl, rfl, rfl⟩

theorem is_ofLiteral {l : Literal} (h : l.IsNative) :
    (ofLiteral l).Is l.word l.isUnsigned (l.type == .boolean) := by
  refine ⟨h.word?, h.isUnsigned_ofLiteral, ?_⟩
  cases l with
  | int | uint | bool => rfl
  | foreign => exact h.elim

end Value

end Ember
