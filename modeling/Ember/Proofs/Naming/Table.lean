import Ember.Proofs.Format.Sketch

namespace Ember

namespace SymbolTable

/-- Tables that come from the empty one by entering names and setting types. -/
inductive Built : SymbolTable → Prop
  | empty : Built .empty
  | add {t : SymbolTable} (h : Built t) (name : String) (type : Datatype) :
    Built (t.add name type).2
  | setType {t t' : SymbolTable} (h : Built t) {id : Int} {type : Datatype}
    (hset : t.setType id type = .ok t') : Built t'

/-- No two ids have one name. -/
def Distinct (t : SymbolTable) : Prop :=
  ∀ ⦃a b : Int⦄ ⦃x y : Symbol⦄, t.get? a = some x → t.get? b = some y → x.name = y.name → a = b

theorem get?_eq_some {t : SymbolTable} {id : Int} {x : Symbol} :
    t.get? id = some x ↔ 0 ≤ id ∧ t.entries[id.toNat]? = some x := by
  unfold get?
  split
  · simp
    omega
  · simp
    omega

theorem find?_eq_none {t : SymbolTable} {name : String} :
    t.find? name = none ↔ ∀ id x, t.get? id = some x → x.name ≠ name := by
  simp only [find?, Array.findIdx?_eq_none_iff, beq_eq_false_iff_ne, get?_eq_some]
  constructor
  · rintro h id x ⟨-, hx⟩
    exact h x (Array.mem_of_getElem? hx)
  · intro h x hx
    obtain ⟨i, hi, rfl⟩ := Array.getElem_of_mem hx
    exact h i _ ⟨Int.natCast_nonneg i, by simp [hi]⟩

/-- A name that is new is entered behind the others. -/
theorem get?_add_eq_some {t : SymbolTable} {name : String} {type : Datatype} {id : Int}
    {x : Symbol} :
    (t.add name type).2.get? id = some x ↔
      t.get? id = some x ∨ (t.find? name = none ∧ id = t.size ∧ x = ⟨name, type⟩) := by
  unfold add
  cases hfind : t.find? name with
  | some i => simp
  | none =>
    simp only [get?_eq_some, Array.getElem?_push, size, true_and]
    constructor
    · rintro ⟨hid, hx⟩
      split at hx
      · exact .inr ⟨by omega, (Option.some.inj hx).symm⟩
      · exact .inl ⟨hid, hx⟩
    · rintro (⟨hid, hx⟩ | ⟨rfl, rfl⟩)
      · obtain ⟨hlt, -⟩ := Array.getElem?_eq_some_iff.1 hx
        rw [if_neg (by omega)]
        exact ⟨hid, hx⟩
      · simp

theorem get?_retype {t : SymbolTable} {a : Int} {type : Datatype} {id : Int} {x : Symbol} :
    (t.retype a type).get? id = some x ↔
      ∃ y, t.get? id = some y ∧ x = if id = a then { y with type } else y := by
  unfold retype
  split
  · rename_i ha
    constructor
    · intro hx
      have hid := (get?_eq_some.1 hx).1
      exact ⟨x, hx, by rw [if_neg (by omega)]⟩
    · rintro ⟨y, hy, rfl⟩
      have hid := (get?_eq_some.1 hy).1
      rwa [if_neg (by omega)]
  · simp only [get?_eq_some, Array.getElem?_modify]
    constructor
    · rintro ⟨hid, hx⟩
      split at hx
      · obtain ⟨y, hy, rfl⟩ := Option.map_eq_some_iff.1 hx
        exact ⟨y, ⟨hid, hy⟩, by rw [if_pos (by omega)]⟩
      · exact ⟨x, ⟨hid, hx⟩, by rw [if_neg (by omega)]⟩
    · rintro ⟨y, ⟨hid, hy⟩, rfl⟩
      refine ⟨hid, ?_⟩
      by_cases hia : id = a
      · rw [if_pos (by omega), hy, if_pos hia]
        rfl
      · rw [if_neg (by omega), hy, if_neg hia]

theorem Distinct.add {t : SymbolTable} (h : t.Distinct) (name : String) (type : Datatype) :
    (t.add name type).2.Distinct := by
  intro a b x y hx hy hname
  rw [get?_add_eq_some] at hx hy
  rcases hx with hx | ⟨hnone, rfl, rfl⟩ <;> rcases hy with hy | ⟨hnone', rfl, rfl⟩
  · exact h hx hy hname
  · exact absurd hname (find?_eq_none.1 hnone' a x hx)
  · exact absurd hname.symm (find?_eq_none.1 hnone b y hy)
  · rfl

theorem Distinct.retype {t : SymbolTable} (h : t.Distinct) (id : Int) (type : Datatype) :
    (t.retype id type).Distinct := by
  intro a b x y hx hy hname
  obtain ⟨x', hx', rfl⟩ := get?_retype.1 hx
  obtain ⟨y', hy', rfl⟩ := get?_retype.1 hy
  refine h hx' hy' ?_
  split at hname <;> split at hname <;> exact hname

theorem Built.distinct {t : SymbolTable} (h : t.Built) : t.Distinct := by
  induction h with
  | empty => exact fun a b x y hx => by simp [get?, SymbolTable.empty] at hx
  | add _ name type ih => exact ih.add name type
  | @setType t t' _ id type hset ih =>
    have hretype : t.retype id type = t' := by
      unfold SymbolTable.setType at hset
      cases hlookup : t.lookup id with
      | ok symbol =>
        rw [hlookup] at hset
        exact Except.ok.inj hset
      | error message =>
        rw [hlookup] at hset
        cases hset
    exact hretype ▸ ih.retype id type

/-- Ids that have one name in their tables. -/
def SameName (t t' : SymbolTable) (a b : Int) : Prop :=
  ∃ x y, t.get? a = some x ∧ t'.get? b = some y ∧ x.name = y.name

theorem SameName.mono {t t' u u' : SymbolTable} (h : t.Keeps u) (h' : t'.Keeps u') {a b : Int}
    (hsame : t.SameName t' a b) : u.SameName u' a b := by
  obtain ⟨x, y, hx, hy, hname⟩ := hsame
  obtain ⟨x', hx', hxname⟩ := h a x hx
  obtain ⟨y', hy', hyname⟩ := h' b y hy
  exact ⟨x', y', hx', hy', hxname.trans (hname.trans hyname.symm)⟩

theorem sameName_add (t t' : SymbolTable) (name : String) (type : Datatype) :
    (t.add name type).2.SameName (t'.add name type).2 (t.add name type).1 (t'.add name type).1 := by
  obtain ⟨x, hx, hxname⟩ := t.get?_add name type
  obtain ⟨y, hy, hyname⟩ := t'.get?_add name type
  exact ⟨x, y, hx, hy, hxname.trans hyname.symm⟩

theorem SameName.nameOf_eq {t t' : SymbolTable} {a b : Int} (h : t.SameName t' a b) :
    t.nameOf a = t'.nameOf b := by
  obtain ⟨x, y, hx, hy, hname⟩ := h
  simp [nameOf, hx, hy, hname]

/-- A relation between tables that lasts while the same names are entered and typed in both. -/
structure Lasting (T : SymbolTable → SymbolTable → Prop) : Prop where
  add : ∀ {t t' : SymbolTable}, T t t' → ∀ (name : String) (type : Datatype),
    T (t.add name type).2 (t'.add name type).2
  retype : ∀ {t t' : SymbolTable}, T t t' → ∀ {a b : Int}, t.SameName t' a b →
    ∀ type : Datatype, T (t.retype a type) (t'.retype b type)

theorem Distinct.lasting : Lasting fun t t' => t.Distinct ∧ t'.Distinct where
  add h name type := ⟨h.1.add name type, h.2.add name type⟩
  retype h _ _ _ type := ⟨h.1.retype _ type, h.2.retype _ type⟩

/-- Where names are distinct, the ids of the names that two tables share are paired. -/
theorem SameName.eq_iff {t t' : SymbolTable} (ht : t.Distinct) (ht' : t'.Distinct)
    {a a' b b' : Int} (h : t.SameName t' a a') (h' : t.SameName t' b b') : a = b ↔ a' = b' := by
  obtain ⟨x, x', hx, hx', hname⟩ := h
  obtain ⟨y, y', hy, hy', hname'⟩ := h'
  constructor
  · rintro rfl
    cases hx.symm.trans hy
    exact ht' hx' hy' (hname.symm.trans hname')
  · rintro rfl
    cases hx'.symm.trans hy'
    exact ht hx hy (hname.trans hname'.symm)

/-- The table has an entry for the name with the type. -/
def Has (t : SymbolTable) (name : String) (type : Datatype) : Prop :=
  ∃ id, t.get? id = some ⟨name, type⟩

/-- `t'` has the names of `t`, and no other types than `t` and `first` have. -/
structure Repeats (first t t' : SymbolTable) : Prop where
  distinct : t.Distinct
  distinct' : t'.Distinct
  names : ∀ name type, t.Has name type → ∃ type', t'.Has name type'
  types : ∀ name type, t'.Has name type → t.Has name type ∨ first.Has name type

theorem has_add {t : SymbolTable} {name name' : String} {type type' : Datatype} :
    (t.add name type).2.Has name' type' ↔
      t.Has name' type' ∨ (t.find? name = none ∧ name' = name ∧ type' = type) := by
  simp only [Has, get?_add_eq_some, exists_or, Symbol.mk.injEq]
  refine or_congr_right ⟨?_, ?_⟩
  · rintro ⟨_, hnone, -, hname⟩
    exact ⟨hnone, hname⟩
  · rintro ⟨hnone, hname⟩
    exact ⟨_, hnone, rfl, hname⟩

theorem find?_eq_none_iff_has {t : SymbolTable} {name : String} :
    t.find? name = none ↔ ∀ type, ¬t.Has name type := by
  rw [find?_eq_none]
  constructor
  · rintro h type ⟨id, hid⟩
    exact h id _ hid rfl
  · rintro h id ⟨_, type⟩ hid rfl
    exact h type ⟨id, hid⟩

theorem Distinct.has_retype {t : SymbolTable} (ht : t.Distinct) {a : Int} {x : Symbol}
    (ha : t.get? a = some x) (type : Datatype) {name : String} {type' : Datatype} :
    (t.retype a type).Has name type' ↔
      (name = x.name ∧ type' = type) ∨ (name ≠ x.name ∧ t.Has name type') := by
  constructor
  · rintro ⟨id, hid⟩
    obtain ⟨y, hy, heq⟩ := get?_retype.1 hid
    by_cases hia : id = a
    · subst hia
      cases ha.symm.trans hy
      rw [if_pos rfl] at heq
      cases heq
      exact .inl ⟨rfl, rfl⟩
    · rw [if_neg hia] at heq
      cases heq
      exact .inr ⟨fun hname => hia (ht hy ha hname), id, hy⟩
  · rintro (⟨rfl, rfl⟩ | ⟨hne, id, hid⟩)
    · exact ⟨a, get?_retype.2 ⟨x, ha, by rw [if_pos rfl]⟩⟩
    · refine ⟨id, get?_retype.2 ⟨_, hid, ?_⟩⟩
      rw [if_neg]
      rintro rfl
      cases ha.symm.trans hid
      exact hne rfl

theorem Repeats.lasting (first : SymbolTable) : Lasting (Repeats first) where
  add {t t'} h name type := by
    refine ⟨h.distinct.add name type, h.distinct'.add name type, ?_, ?_⟩
    · intro n τ hn
      rcases has_add.1 hn with hn | ⟨hnone, rfl, rfl⟩
      · obtain ⟨τ', hτ'⟩ := h.names n τ hn
        exact ⟨τ', has_add.2 (.inl hτ')⟩
      · cases hfind : t'.find? n with
        | none => exact ⟨τ, has_add.2 (.inr ⟨hfind, rfl, rfl⟩)⟩
        | some id =>
          have hsome : t'.find? n ≠ none := by simp [hfind]
          rw [ne_eq, find?_eq_none_iff_has] at hsome
          obtain ⟨τ', hτ'⟩ := not_forall_not.1 hsome
          exact ⟨τ', has_add.2 (.inl hτ')⟩
    · intro n τ hn
      rcases has_add.1 hn with hn | ⟨hnone, rfl, rfl⟩
      · exact (h.types n τ hn).imp (fun h => has_add.2 (.inl h)) id
      · -- A name that the second table lacks is new in both.
        have hnew : t.find? n = none := by
          refine find?_eq_none_iff_has.2 fun τ' hτ' => ?_
          obtain ⟨τ'', hτ''⟩ := h.names n τ' hτ'
          exact find?_eq_none_iff_has.1 hnone τ'' hτ''
        exact .inl (has_add.2 (.inr ⟨hnew, rfl, rfl⟩))
  retype {t t'} h a b hsame type := by
    obtain ⟨x, y, hx, hy, hname⟩ := hsame
    refine ⟨h.distinct.retype a type, h.distinct'.retype b type, ?_, ?_⟩
    · intro n τ hn
      rcases (h.distinct.has_retype hx type).1 hn with ⟨rfl, rfl⟩ | ⟨hne, hn⟩
      · exact ⟨τ, (h.distinct'.has_retype hy τ).2 (.inl ⟨hname, rfl⟩)⟩
      · obtain ⟨τ', hτ'⟩ := h.names n τ hn
        exact ⟨τ', (h.distinct'.has_retype hy type).2 (.inr ⟨hname ▸ hne, hτ'⟩)⟩
    · intro n τ hn
      rcases (h.distinct'.has_retype hy type).1 hn with ⟨rfl, rfl⟩ | ⟨hne, hn⟩
      · exact .inl ((h.distinct.has_retype hx τ).2 (.inl ⟨hname.symm, rfl⟩))
      · refine (h.types n τ hn).imp (fun hn => ?_) id
        exact (h.distinct.has_retype hx type).2 (.inr ⟨hname ▸ hne, hn⟩)

/-- A table that keeps the ids of another, and has none but its names and types, is the same. -/
theorem eq_of_keeps {t t' : SymbolTable} (ht : t.Distinct) (ht' : t'.Distinct) (h : t.Keeps t')
    (hhas : ∀ name type, t'.Has name type → t.Has name type) : t' = t := by
  have hget : ∀ id x, t'.get? id = some x ↔ t.get? id = some x := by
    intro id x
    constructor
    · intro hx
      obtain ⟨a, ha⟩ := hhas x.name x.type ⟨id, hx⟩
      obtain ⟨y, hy, hname⟩ := h a _ ha
      cases ht' hy hx hname
      exact ha
    · intro hx
      obtain ⟨y, hy, hname⟩ := h id x hx
      obtain ⟨a, ha⟩ := hhas y.name y.type ⟨id, hy⟩
      cases ht ha hx hname
      cases ha.symm.trans hx
      exact hy
  have hentries : t'.entries = t.entries := by
    refine Array.ext_getElem? fun i => Option.ext fun x => ?_
    have hi := hget i x
    simpa [get?_eq_some] using hi
  cases t
  cases t'
  exact congrArg SymbolTable.mk hentries

end SymbolTable

end Ember
