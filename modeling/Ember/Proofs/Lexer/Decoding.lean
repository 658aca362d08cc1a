import Ember.Text.Glyph
import Mathlib.Data.List.Basic

namespace Ember

namespace Source

theorem continuation?_eq_some_iff {b : UInt8} {x : Nat} :
    continuation? b = some x ↔ b.toNat = 0x80 + x ∧ x < 0x40 := by
  simp only [continuation?, UInt8.le_iff_toNat_le, UInt8.lt_iff_toNat_lt, UInt8.reduceToNat,
    Option.ite_none_right_eq_some, Option.some.injEq]
  omega

theorem toNat_ofNat_of_valid {n : Nat} (h : n.isValidChar) : (Char.ofNat n).toNat = n := by
  rw [Char.ofNat, dif_pos h]
  rfl

theorem scalar?_eq_some_iff {size n : Nat} {c : Char} :
    scalar? size n = some c ↔ c.toNat = n ∧ c.utf8Size = size := by
  simp only [scalar?, Option.ite_none_right_eq_some, Option.some.injEq]
  constructor
  · rintro ⟨⟨hvalid, hsize⟩, rfl⟩
    exact ⟨toNat_ofNat_of_valid hvalid, hsize⟩
  · rintro ⟨rfl, hsize⟩
    have hc : Char.ofNat c.toNat = c := Char.ofNat_toNat c
    refine ⟨⟨c.valid, ?_⟩, hc⟩
    rw [hc]
    exact hsize

theorem toNat_lt (c : Char) : c.toNat < 0x110000 := by
  have := c.valid
  simp only [UInt32.isValidChar, Nat.isValidChar] at this
  change c.val.toNat < _
  omega

/-- The encoding of a character, as numbers. -/
theorem toNat_utf8EncodeChar (c : Char) :
    (String.utf8EncodeChar c).map UInt8.toNat =
      if c.toNat < 0x80 then [c.toNat]
      else if c.toNat < 0x800 then [0xc0 + c.toNat / 0x40, 0x80 + c.toNat % 0x40]
      else if c.toNat < 0x10000 then
        [0xe0 + c.toNat / 0x1000, 0x80 + c.toNat / 0x40 % 0x40, 0x80 + c.toNat % 0x40]
      else [0xf0 + c.toNat / 0x40000, 0x80 + c.toNat / 0x1000 % 0x40,
        0x80 + c.toNat / 0x40 % 0x40, 0x80 + c.toNat % 0x40] := by
  have hbound := toNat_lt c
  have hv : c.val.toNat = c.toNat := rfl
  simp only [String.utf8EncodeChar, hv]
  split
  · rw [if_pos (by omega)]
    simp
    omega
  split
  · rw [if_neg (by omega), if_pos (by omega)]
    simp
    omega
  split
  · rw [if_neg (by omega), if_neg (by omega), if_pos (by omega)]
    simp
    omega
  · rw [if_neg (by omega), if_neg (by omega), if_neg (by omega)]
    simp
    omega

theorem utf8Size_eq (c : Char) :
    c.utf8Size = if c.toNat < 0x80 then 1 else if c.toNat < 0x800 then 2
      else if c.toNat < 0x10000 then 3 else 4 := by
  have hlength := congrArg List.length (toNat_utf8EncodeChar c)
  rw [List.length_map, String.length_utf8EncodeChar] at hlength
  rw [hlength]
  split
  · rfl
  split
  · rfl
  split <;> rfl

theorem isPrefix_iff_map {a b : List UInt8} :
    a <+: b ↔ a.map UInt8.toNat <+: b.map UInt8.toNat :=
  (List.prefix_map_iff_of_injective fun _ _ h => UInt8.toNat_inj.1 h).symm

theorem isPrefix_of_leading? {b : UInt8} {rest : List UInt8} {c : Char}
    (h : leading? b rest = some c) : String.utf8EncodeChar c <+: b :: rest := by
  have hb := b.toNat_lt
  rw [isPrefix_iff_map, toNat_utf8EncodeChar]
  simp only [leading?, UInt8.le_iff_toNat_le, UInt8.lt_iff_toNat_lt, UInt8.reduceToNat] at h
  split at h
  · rename_i hlow
    cases h
    rw [toNat_ofNat_of_valid (.inl (by omega)), if_pos hlow]
    simp
  split at h
  · match rest, h with
    | b₁ :: tail, h =>
      simp only [Option.bind_eq_bind, Option.bind_eq_some_iff, continuation?_eq_some_iff,
        scalar?_eq_some_iff, utf8Size_eq] at h
      obtain ⟨x, ⟨hx, hxlt⟩, hn, hsize⟩ := h
      have hlow : ¬c.toNat < 0x80 := by grind
      have hhigh : c.toNat < 0x800 := by grind
      rw [if_neg hlow, if_pos hhigh]
      simp only [List.map_cons, List.cons_prefix_cons, List.nil_prefix, and_true]
      omega
  split at h
  · match rest, h with
    | b₁ :: b₂ :: tail, h =>
      simp only [Option.bind_eq_bind, Option.bind_eq_some_iff, continuation?_eq_some_iff,
        scalar?_eq_some_iff, utf8Size_eq] at h
      obtain ⟨x, ⟨hx, hxlt⟩, y, ⟨hy, hylt⟩, hn, hsize⟩ := h
      have hlow : ¬c.toNat < 0x800 := by grind
      have hhigh : c.toNat < 0x10000 := by grind
      rw [if_neg (by omega), if_neg hlow, if_pos hhigh]
      simp only [List.map_cons, List.cons_prefix_cons, List.nil_prefix, and_true]
      omega
  split at h
  · match rest, h with
    | b₁ :: b₂ :: b₃ :: tail, h =>
      simp only [Option.bind_eq_bind, Option.bind_eq_some_iff, continuation?_eq_some_iff,
        scalar?_eq_some_iff, utf8Size_eq] at h
      obtain ⟨x, ⟨hx, hxlt⟩, y, ⟨hy, hylt⟩, z, ⟨hz, hzlt⟩, hn, hsize⟩ := h
      have hlow : ¬c.toNat < 0x10000 := by grind
      rw [if_neg (by omega), if_neg (by omega), if_neg hlow]
      simp only [List.map_cons, List.cons_prefix_cons, List.nil_prefix, and_true]
      omega
  · cases h

theorem leading?_of_isPrefix {b : UInt8} {rest : List UInt8} {c : Char}
    (h : String.utf8EncodeChar c <+: b :: rest) : leading? b rest = some c := by
  have hc := toNat_lt c
  rw [isPrefix_iff_map, toNat_utf8EncodeChar] at h
  simp only [leading?, UInt8.le_iff_toNat_le, UInt8.lt_iff_toNat_lt, UInt8.reduceToNat]
  split at h
  · simp only [List.map_cons, List.cons_prefix_cons, List.nil_prefix, and_true] at h
    rw [if_pos (by omega), ← h, Char.ofNat_toNat]
  split at h
  · match rest, h with
    | b₁ :: tail, h =>
      simp only [List.map_cons, List.cons_prefix_cons, List.nil_prefix, and_true] at h
      rw [if_neg (by omega), if_pos (by omega)]
      simp only [Option.bind_eq_bind, Option.bind_eq_some_iff, continuation?_eq_some_iff,
        scalar?_eq_some_iff, utf8Size_eq]
      exact ⟨c.toNat % 0x40, by omega, by omega, by grind⟩
    | [], h => simp at h
  split at h
  · match rest, h with
    | b₁ :: b₂ :: tail, h =>
      simp only [List.map_cons, List.cons_prefix_cons, List.nil_prefix, and_true] at h
      rw [if_neg (by omega), if_neg (by omega), if_pos (by omega)]
      simp only [Option.bind_eq_bind, Option.bind_eq_some_iff, continuation?_eq_some_iff,
        scalar?_eq_some_iff, utf8Size_eq]
      exact ⟨c.toNat / 0x40 % 0x40, by omega, c.toNat % 0x40, by omega, by omega, by grind⟩
    | [_], h => simp at h
    | [], h => simp at h
  · match rest, h with
    | b₁ :: b₂ :: b₃ :: tail, h =>
      simp only [List.map_cons, List.cons_prefix_cons, List.nil_prefix, and_true] at h
      rw [if_neg (by omega), if_neg (by omega), if_neg (by omega), if_pos (by omega)]
      simp only [Option.bind_eq_bind, Option.bind_eq_some_iff, continuation?_eq_some_iff,
        scalar?_eq_some_iff, utf8Size_eq]
      exact ⟨c.toNat / 0x1000 % 0x40, by omega, c.toNat / 0x40 % 0x40, by omega,
        c.toNat % 0x40, by omega, by omega, by grind⟩
    | [_, _], h => simp at h
    | [_], h => simp at h
    | [], h => simp at h

/-- A character begins the bytes just if its encoding does. -/
theorem leading?_eq_some_iff {b : UInt8} {rest : List UInt8} {c : Char} :
    leading? b rest = some c ↔ String.utf8EncodeChar c <+: b :: rest :=
  ⟨isPrefix_of_leading?, leading?_of_isPrefix⟩

/-- The text that bytes stand for: at each place the character whose encoding stands there, or
else one stray byte. -/
inductive Decodes : List UInt8 → Source → Prop
  | nil : Decodes [] []
  | char {c : Char} {rest : List UInt8} {text : Source} (h : Decodes rest text) :
    Decodes (String.utf8EncodeChar c ++ rest) (.char c :: text)
  | stray {b : UInt8} {rest : List UInt8} {text : Source}
    (hnone : ∀ c, ¬String.utf8EncodeChar c <+: b :: rest) (h : Decodes rest text) :
    Decodes (b :: rest) (.stray b :: text)

theorem decodeFrom_eq (skip : Nat) (bytes : List UInt8) :
    decodeFrom skip bytes = ofBytes (bytes.drop skip) := by
  induction bytes generalizing skip with
  | nil => simp [decodeFrom, ofBytes]
  | cons b rest ih =>
    cases skip with
    | zero => rfl
    | succ skip => simpa [decodeFrom] using ih skip

theorem ofBytes_char (c : Char) (rest : List UInt8) :
    ofBytes (String.utf8EncodeChar c ++ rest) = .char c :: ofBytes rest := by
  have hlength := String.length_utf8EncodeChar c
  cases hc : String.utf8EncodeChar c with
  | nil => exact absurd hc String.utf8EncodeChar_ne_nil
  | cons b tail =>
    have hlead : leading? b (tail ++ rest) = some c := by
      refine leading?_eq_some_iff.2 ⟨rest, ?_⟩
      rw [hc]
      rfl
    rw [hc, List.length_cons] at hlength
    rw [List.cons_append, ofBytes, decodeFrom]
    simp only [hlead, decodeFrom_eq]
    rw [← hlength, Nat.add_sub_cancel, List.drop_left]

theorem ofBytes_stray {b : UInt8} {rest : List UInt8}
    (h : ∀ c, ¬String.utf8EncodeChar c <+: b :: rest) :
    ofBytes (b :: rest) = .stray b :: ofBytes rest := by
  have hlead : leading? b rest = none := by
    refine Option.eq_none_iff_forall_ne_some.2 fun c hc => h c ?_
    exact leading?_eq_some_iff.1 hc
  rw [ofBytes, decodeFrom]
  simp only [hlead]
  rfl

theorem decodes_ofBytes (bytes : List UInt8) : Decodes bytes (ofBytes bytes) := by
  induction hn : bytes.length using Nat.strongRecOn generalizing bytes with
  | _ n ih =>
    cases bytes with
    | nil => exact .nil
    | cons b rest =>
      by_cases h : ∃ c, String.utf8EncodeChar c <+: b :: rest
      · obtain ⟨c, tail, hc⟩ := h
        have hpos := List.length_pos_iff.2 (String.utf8EncodeChar_ne_nil (c := c))
        have hlength := congrArg List.length hc
        rw [List.length_append, hn] at hlength
        rw [← hc, ofBytes_char]
        exact .char (ih tail.length (by omega) tail rfl)
      · have hnone := not_exists.1 h
        rw [ofBytes_stray hnone]
        exact .stray hnone (ih rest.length (by rw [← hn]; exact Nat.lt_succ_self _) rest rfl)

theorem Decodes.eq_ofBytes {bytes : List UInt8} {text : Source} (h : Decodes bytes text) :
    ofBytes bytes = text := by
  induction h with
  | nil => rfl
  | char _ ih => rw [ofBytes_char, ih]
  | stray hnone _ ih => rw [ofBytes_stray hnone, ih]

theorem bytes_append (a b : Source) : (a ++ b).bytes = a.bytes ++ b.bytes :=
  List.flatMap_append

/-- Nothing of the bytes is lost. -/
theorem Decodes.bytes_eq {bytes : List UInt8} {text : Source} (h : Decodes bytes text) :
    text.bytes = bytes := by
  induction h with
  | nil => rfl
  | char _ ih => exact congrArg _ ih
  | stray _ _ ih => exact congrArg _ ih

/-- A part of a text stands for the same when the bytes after it are cut off. -/
theorem Decodes.left {bytes : List UInt8} {before after : Source}
    (h : Decodes bytes (before ++ after)) : Decodes before.bytes before := by
  induction before generalizing bytes with
  | nil => exact .nil
  | cons g before ih =>
    cases h with
    | char h => exact .char (ih h)
    | stray hnone h =>
      have hbytes := h.bytes_eq.symm.trans (bytes_append before after)
      refine .stray (fun c hc => hnone c (hc.trans ?_)) (ih h)
      exact ⟨after.bytes, congrArg _ hbytes.symm⟩

theorem Decodes.right {bytes : List UInt8} {before after : Source}
    (h : Decodes bytes (before ++ after)) : Decodes after.bytes after := by
  induction before generalizing bytes with
  | nil => exact h.bytes_eq ▸ h
  | cons g before ih => cases h <;> exact ih ‹_›

/-- Where a text is cut, its bytes are cut, and each part stands for the same on its own. -/
theorem ofBytes_cut {bytes : List UInt8} {before after : Source}
    (h : ofBytes bytes = before ++ after) :
    ofBytes (bytes.take before.bytes.length) = before ∧
      bytes.drop before.bytes.length = after.bytes ∧ ofBytes after.bytes = after := by
  have hdecodes := decodes_ofBytes bytes
  rw [h] at hdecodes
  have hbytes := hdecodes.bytes_eq
  rw [bytes_append] at hbytes
  rw [← hbytes, List.take_left, List.drop_left]
  exact ⟨hdecodes.left.eq_ofBytes, rfl, hdecodes.right.eq_ofBytes⟩

end Source

end Ember
