import Mathlib.Data.Int.ModEq
import Ember.Proofs.Run.Storage
import Ember.Proofs.Wat.Operands

namespace Ember

theorem toNat_toUInt64 (w : Int64) : (w.toUInt64.toNat : Int) = w.toInt % 2 ^ 64 := by
  have hbits : w.toInt = (w.toUInt64.toNat : Int).bmod (2 ^ 64) := w.toBitVec.toInt_eq_toNat_bmod
  have hmod : (w.toUInt64.toNat : Int).bmod (2 ^ 64) % 2 ^ 64 = w.toUInt64.toNat % 2 ^ 64 :=
    Int.bmod_emod
  rw [hbits, hmod]
  exact (Int.emod_eq_of_lt (Int.natCast_nonneg _) (by exact_mod_cast w.toUInt64.toNat_lt)).symm

/-- What has no more than 63 bits has no sign. -/
theorem toInt_toInt64_of_lt {x : UInt64} (h : x.toNat < 2 ^ 63) : x.toInt64.toInt = x.toNat :=
  BitVec.toInt_eq_toNat_of_lt (by change 2 * x.toNat < 2 ^ 64; omega)

namespace Datatype

variable {type : Datatype} {n m : Int} {v w : Int64}

/-- The number that a word stands for in a variable of the type: `uint64` reads its bits without a
sign. -/
def number (type : Datatype) (w : Int64) : Int :=
  if type = .uint64 then w.toUInt64.toNat else w.toInt

/-- The numbers that have the width and the sign of the type. -/
def InRange (type : Datatype) (n : Int) : Prop :=
  if type.isSigned then -2 ^ (type.bits - 1) ≤ n ∧ n < 2 ^ (type.bits - 1)
  else 0 ≤ n ∧ n < 2 ^ type.bits

instance (type : Datatype) (n : Int) : Decidable (type.InRange n) := by
  unfold InRange
  infer_instance

theorem bits_pos (type : Datatype) : 0 < type.bits := by
  cases type <;> exact Nat.succ_pos _

theorem bits_le (type : Datatype) : type.bits ≤ 64 := by
  cases type <;> simp [bits]

theorem two_pow_bits (type : Datatype) : (2 : Int) ^ type.bits = 2 * 2 ^ (type.bits - 1) := by
  rw [← pow_succ', Nat.sub_add_cancel type.bits_pos]

/-- The range holds one number of each residue. -/
theorem InRange.eq_of_modEq (hn : type.InRange n) (hm : type.InRange m)
    (h : n ≡ m [ZMOD 2 ^ type.bits]) : n = m := by
  have hdvd : (2 : Int) ^ type.bits ∣ n - m := h.symm.dvd
  have hlt : |n - m| < 2 ^ type.bits := by
    have hpow := type.two_pow_bits
    unfold InRange at hn hm
    rw [abs_lt]
    split at hn <;> rename_i hsigned
    · rw [if_pos hsigned] at hm
      omega
    · rw [if_neg hsigned] at hm
      omega
  exact Int.sub_eq_zero.1 (Int.eq_zero_of_abs_lt_dvd hdvd hlt)

theorem number_modEq (type : Datatype) (w : Int64) :
    type.number w ≡ w.toInt [ZMOD 2 ^ type.bits] := by
  unfold number
  split
  · rw [toNat_toUInt64]
    exact (Int.mod_modEq _ _).of_dvd (pow_dvd_pow 2 type.bits_le)
  · exact Int.ModEq.refl _

theorem number_inj : type.number v = type.number w ↔ v = w := by
  refine ⟨fun h => ?_, congrArg _⟩
  unfold number at h
  split at h
  · exact Wat.toUInt64_inj.1 (UInt64.toNat_inj.1 (by exact_mod_cast h))
  · exact Int64.toInt_inj.1 h

/-- The low bits of a word, read without a sign, are its residue. -/
theorem toInt_toInt64_of_mod {x : UInt64} {width : Nat} (hwidth : width < 64)
    (h : x.toNat = v.toUInt64.toNat % 2 ^ width) : x.toInt64.toInt = v.toInt % 2 ^ width := by
  have hlt : x.toNat < 2 ^ 63 := by
    rw [h]
    exact (Nat.mod_lt _ (Nat.two_pow_pos width)).trans_le
      (Nat.pow_le_pow_right Nat.two_pos (Nat.le_of_lt_succ hwidth))
  rw [toInt_toInt64_of_lt hlt, h]
  push_cast
  rw [toNat_toUInt64, Int.emod_emod_of_dvd _ (pow_dvd_pow 2 hwidth.le)]

/-- A word that is narrowed to an integer type stands for its residue: the one next to zero for a
signed type, the least that is not negative for the others. -/
theorem number_narrow (h : type.isInteger) (v : Int64) :
    type.number (type.narrow v) =
      if type.isSigned then v.toInt.bmod (2 ^ type.bits) else v.toInt % 2 ^ type.bits := by
  cases type with
  | empty | void | boolean | other => cases h
  | int8 | int16 | int32 => simp [number, narrow, isSigned, bits]
  | int64 => exact v.toInt_bmod.symm
  | uint8 | uint16 | uint32 => exact toInt_toInt64_of_mod (by decide) (by simp [bits])
  | uint64 => exact toNat_toUInt64 v

/-- A word keeps its residue when it is narrowed. -/
theorem number_narrow_modEq (h : type.isInteger) (v : Int64) :
    type.number (type.narrow v) ≡ v.toInt [ZMOD 2 ^ type.bits] := by
  rw [number_narrow h]
  split
  · exact_mod_cast Int.bmod_emod
  · exact Int.mod_modEq _ _

/-- A word that is narrowed stands for a number in the range of the type. -/
theorem inRange_number_narrow (h : type.isInteger) (v : Int64) :
    type.InRange (type.number (type.narrow v)) := by
  have hpow := type.two_pow_bits
  have hpos : (0 : Int) < 2 ^ type.bits := Int.pow_pos (by decide)
  rw [number_narrow h, InRange]
  split
  · have hle := Int.le_bmod (x := v.toInt) (Nat.two_pow_pos type.bits)
    have hlt := Int.bmod_lt (x := v.toInt) (Nat.two_pow_pos type.bits)
    push_cast at hle hlt
    omega
  · exact ⟨Int.emod_nonneg _ hpos.ne', Int.emod_lt_of_pos _ hpos⟩

/-- Words are narrowed to the same word exactly if they have the same residue. -/
theorem narrow_eq_narrow_iff (h : type.isInteger) :
    type.narrow v = type.narrow w ↔ v.toInt ≡ w.toInt [ZMOD 2 ^ type.bits] := by
  have hv := number_narrow_modEq h v
  have hw := number_narrow_modEq h w
  constructor
  · intro heq
    rw [heq] at hv
    exact hv.symm.trans hw
  · intro hmod
    exact number_inj.1 ((inRange_number_narrow h v).eq_of_modEq (inRange_number_narrow h w)
      ((hv.trans hmod).trans hw.symm))

/-- An operator that wraps around at 64 bits gives the same word whether its operands are narrowed
before it or not, if it keeps residues. -/
theorem narrow_operator (h : type.isInteger) {op : Int64 → Int64 → Int64} {f : Int → Int → Int}
    (hop : ∀ a b, (op a b).toInt = (f a.toInt b.toInt).bmod (2 ^ 64))
    (hf : ∀ {a b c d : Int}, a ≡ b [ZMOD 2 ^ type.bits] → c ≡ d [ZMOD 2 ^ type.bits] →
      f a c ≡ f b d [ZMOD 2 ^ type.bits]) (v w : Int64) :
    type.narrow (op v w) = type.narrow (op (type.narrow v) (type.narrow w)) := by
  have hwrap : ∀ n : Int, n.bmod (2 ^ 64) ≡ n [ZMOD 2 ^ type.bits] := fun n =>
    Int.ModEq.of_dvd (pow_dvd_pow 2 type.bits_le) (by exact_mod_cast Int.bmod_emod)
  have hresidue : ∀ a, a.toInt ≡ (type.narrow a).toInt [ZMOD 2 ^ type.bits] := fun a =>
    (number_narrow_modEq h a).symm.trans (number_modEq type _)
  rw [narrow_eq_narrow_iff h, hop, hop]
  calc (f v.toInt w.toInt).bmod (2 ^ 64)
      ≡ f v.toInt w.toInt [ZMOD 2 ^ type.bits] := hwrap _
    _ ≡ f (type.narrow v).toInt (type.narrow w).toInt [ZMOD 2 ^ type.bits] :=
        hf (hresidue v) (hresidue w)
    _ ≡ (f (type.narrow v).toInt (type.narrow w).toInt).bmod (2 ^ 64) [ZMOD 2 ^ type.bits] :=
        (hwrap _).symm

end Datatype

/-- A variable stores the narrowed word of what is assigned to it, with the mark of its type. -/
theorem Value.word?_narrow (type : Datatype) (value : Value) :
    (value.narrow type).word? = value.word?.map type.narrow := by
  unfold narrow
  cases hword : value.word? with
  | none => exact hword
  | some w =>
    cases type with
    | boolean => by_cases hw : w = 0 <;> simp [word?, Datatype.narrow, hw]
    | uint64 => rfl
    | int8 | int16 | int32 | int64 | uint8 | uint16 | uint32 => rfl
    | empty | void | other => exact hword

/-- The instructions that narrow a word to a type leave the word that the type narrows it to, which
is also the word of a value that is stored with the type. Narrowing it again changes nothing. For an
integer type it stands for the one number in the range that has the same residue, and words can be
narrowed before they are added, subtracted and multiplied. -/
theorem Datatype.narrow_modular (type : Datatype) (v : Int64) :
    (∀ calls rounds stack store,
      Wat.Instr.runAll calls rounds (Wat.narrowing type) ⟨.i64 v :: stack, store⟩ =
        .ok (.next, ⟨.i64 (type.narrow v) :: stack, store⟩)) ∧
    (∀ value : Value, (value.narrow type).word? = value.word?.map type.narrow) ∧
    type.narrow (type.narrow v) = type.narrow v ∧
    uint64.narrow v = v ∧
    (type.isInteger →
      (∀ n : Int, n = type.number (type.narrow v) ↔
        type.InRange n ∧ n ≡ v.toInt [ZMOD 2 ^ type.bits]) ∧
      ∀ w,
        type.narrow (v + w) = type.narrow (type.narrow v + type.narrow w) ∧
        type.narrow (v - w) = type.narrow (type.narrow v - type.narrow w) ∧
        type.narrow (v * w) = type.narrow (type.narrow v * type.narrow w)) := by
  refine ⟨fun _ _ stack _ => Wat.Takes.narrowing type v stack, Value.word?_narrow type,
    narrow_narrow type v, rfl, fun h => ⟨fun n => ⟨?_, fun ⟨hrange, hmod⟩ => ?_⟩, fun w =>
    ⟨narrow_operator h Int64.toInt_add Int.ModEq.add v w,
      narrow_operator h Int64.toInt_sub Int.ModEq.sub v w,
      narrow_operator h Int64.toInt_mul Int.ModEq.mul v w⟩⟩⟩
  · rintro rfl
    exact ⟨inRange_number_narrow h v, number_narrow_modEq h v⟩
  · exact hrange.eq_of_modEq (inRange_number_narrow h v)
      (hmod.trans (number_narrow_modEq h v).symm)

/-- The word 40000 does not fit into 16 bits with a sign. -/
theorem Datatype.narrow_modular_int16 :
    Wat.Instr.runAll (fun _ _ => .error .stuck) 0 (Wat.narrowing .int16)
      ⟨[.i64 40000], fun _ => none, fun _ => none, ""⟩ =
        .ok (.next, ⟨[.i64 (int16.narrow 40000)], fun _ => none, fun _ => none, ""⟩) ∧
    int16.isInteger ∧ -25536 = int16.number (int16.narrow 40000) ∧
    int16.narrow (40000 * 40000) = int16.narrow (int16.narrow 40000 * int16.narrow 40000) := by
  have hinteger : int16.isInteger := rfl
  obtain ⟨hrun, -, -, -, hmodular⟩ := narrow_modular int16 40000
  obtain ⟨hnumber, harithmetic⟩ := hmodular hinteger
  exact ⟨hrun _ 0 [] _, hinteger, (hnumber (-25536)).2 ⟨by decide, by decide⟩,
    (harithmetic 40000).2.2⟩

end Ember
