import Mathlib.Data.List.Forall2
import Mathlib.Data.List.Lex
import Ember.Tree.Outline

namespace Ember

namespace Outline

/-- The part of a tree at an address. -/
def part? : List Nat → Outline → Option Outline
  | [], o => some o
  | i :: address, .node _ _ children => children[i]?.bind (part? address)

mutual

/-- The addresses in a tree, in pre-order. -/
def addresses : Outline → List (List Nat)
  | .node _ _ children => [] :: childAddresses 0 children

/-- The addresses in children that are numbered from `i` on. -/
def childAddresses (i : Nat) : List Outline → List (List Nat)
  | [] => []
  | child :: rest => child.addresses.map (i :: ·) ++ childAddresses (i + 1) rest

end

theorem exists_of_mem_childAddresses {address : List Nat} {i : Nat} {children : List Outline}
    (h : address ∈ childAddresses i children) : ∃ j rest, address = j :: rest ∧ i ≤ j := by
  induction children generalizing i with
  | nil => cases h
  | cons child others ih =>
    rw [childAddresses] at h
    rcases List.mem_append.1 h with h | h
    · obtain ⟨rest, -, rfl⟩ := List.mem_map.1 h
      exact ⟨i, rest, rfl, Nat.le_refl i⟩
    · obtain ⟨j, rest, rfl, hj⟩ := ih h
      exact ⟨j, rest, rfl, Nat.le_of_succ_le hj⟩

mutual

/-- There is a part at each address, and nowhere else. -/
theorem mem_addresses : (o : Outline) → (address : List Nat) →
    (address ∈ o.addresses ↔ (o.part? address).isSome)
  | .node head loc children, [] => by simp [addresses, part?]
  | .node head loc children, i :: address => by
    have hchildren := mem_childAddresses children address 0 i
    rw [Nat.sub_zero] at hchildren
    rw [addresses, List.mem_cons, part?, hchildren]
    simp

theorem mem_childAddresses : (children : List Outline) → (address : List Nat) → (i j : Nat) →
    (j :: address ∈ childAddresses i children ↔
      i ≤ j ∧ (children[j - i]?.bind (part? address)).isSome)
  | [], address, i, j => by simp [childAddresses]
  | child :: rest, address, i, j => by
    have hchild := mem_addresses child address
    have hrest := mem_childAddresses rest address (i + 1) j
    have hhere : j :: address ∈ child.addresses.map (i :: ·) ↔
        i = j ∧ address ∈ child.addresses := by
      simp [and_comm]
    rw [childAddresses, List.mem_append, hhere, hchild, hrest]
    rcases Nat.lt_trichotomy i j with hlt | rfl | hgt
    · have hindex : j - i = j - (i + 1) + 1 := by omega
      rw [hindex, List.getElem?_cons_succ]
      simp [Nat.ne_of_lt hlt, Nat.succ_le_of_lt hlt, Nat.le_of_lt hlt]
    · simp
    · simp [Nat.ne_of_gt hgt, Nat.not_le.2 hgt, Nat.not_le.2 (Nat.lt_succ_of_lt hgt)]

end

mutual

/-- An address comes after those of the nodes above, and after those of the children before. -/
theorem addresses_ascending : (o : Outline) → o.addresses.Pairwise (· < ·)
  | .node head loc children => by
    rw [addresses]
    refine List.pairwise_cons.2 ⟨fun address h => ?_, childAddresses_ascending 0 children⟩
    obtain ⟨j, rest, rfl, -⟩ := exists_of_mem_childAddresses h
    exact List.nil_lt_cons j rest

theorem childAddresses_ascending (i : Nat) : (children : List Outline) →
    (childAddresses i children).Pairwise (· < ·)
  | [] => List.Pairwise.nil
  | child :: others => by
    rw [childAddresses]
    refine List.pairwise_append.2 ⟨List.pairwise_map.2 ?_, childAddresses_ascending _ others, ?_⟩
    · exact (addresses_ascending child).imp fun h => List.cons_lt_cons_iff.2 (.inr ⟨rfl, h⟩)
    · intro a ha b hb
      obtain ⟨rest, -, rfl⟩ := List.mem_map.1 ha
      obtain ⟨j, rest', rfl, hj⟩ := exists_of_mem_childAddresses hb
      exact List.cons_lt_cons_iff.2 (.inl hj)

end

theorem lt_concat (address : List Nat) (n : Nat) : address < address ++ [n] := by
  induction address with
  | nil => exact List.nil_lt_cons n []
  | cons i address ih => exact List.cons_lt_cons_iff.2 (.inr ⟨rfl, ih⟩)

/-- Between a node and one of its children come only nodes that are deeper than the node. -/
theorem length_lt_of_between {above address : List Nat} {n : Nat} (h : above < address)
    (h' : address < above ++ [n]) : above.length < address.length := by
  induction above generalizing address with
  | nil =>
    cases address with
    | nil => exact absurd h (List.lt_irrefl [])
    | cons => exact Nat.succ_pos _
  | cons i above ih =>
    cases address with
    | nil => exact absurd h (List.not_lt_nil _)
    | cons j address =>
      rw [List.cons_append] at h'
      have hle : i ≤ j := by
        rcases List.cons_lt_cons_iff.1 h with hlt | ⟨rfl, -⟩
        · exact Nat.le_of_lt hlt
        · exact Nat.le_refl i
      rcases List.cons_lt_cons_iff.1 h' with hlt | ⟨rfl, hbehind⟩
      · exact absurd hlt (Nat.not_lt.2 hle)
      · rcases List.cons_lt_cons_iff.1 h with hlt | ⟨-, hbefore⟩
        · exact absurd hlt (Nat.lt_irrefl _)
        · exact Nat.succ_lt_succ (ih hbefore hbehind)

mutual

/-- The entries tell of the nodes at the addresses, one for each. -/
theorem entriesFrom_describe (parent : Int) (depth id : Nat) : (o : Outline) →
    List.Forall₂ (fun e address => e.depth = depth + address.length ∧
      ∃ children, o.part? address = some (.node e.head e.loc children))
      (o.entriesFrom parent depth id) o.addresses
  | .node head loc children => by
    rw [entriesFrom, addresses]
    refine .cons ⟨rfl, children, rfl⟩
      ((childEntries_describe id (depth + 1) (id + 1) 0 children).imp ?_)
    rintro e _ ⟨i, address, rfl, hdepth, hpart⟩
    rw [Nat.zero_add, part?, List.length_cons]
    exact ⟨by omega, hpart⟩

theorem childEntries_describe (parent : Int) (depth id i : Nat) : (children : List Outline) →
    List.Forall₂ (fun e address => ∃ j rest, address = (i + j) :: rest ∧
      e.depth = depth + rest.length ∧
      ∃ inner, children[j]?.bind (part? rest) = some (.node e.head e.loc inner))
      (childEntries parent depth id children) (childAddresses i children)
  | [] => .nil
  | child :: rest => by
    rw [childEntries, childAddresses]
    refine List.rel_append ?_ ?_
    · rw [List.forall₂_map_right_iff]
      refine (entriesFrom_describe parent depth id child).imp ?_
      rintro e address ⟨hdepth, hpart⟩
      exact ⟨0, address, rfl, hdepth, hpart⟩
    · refine (childEntries_describe parent depth _ (i + 1) rest).imp ?_
      rintro e _ ⟨j, address, rfl, hdepth, hpart⟩
      exact ⟨j + 1, address, by rw [Nat.add_assoc, Nat.add_comm 1], hdepth, hpart⟩

end

theorem length_entriesFrom (parent : Int) (depth id : Nat) (o : Outline) :
    (o.entriesFrom parent depth id).length = o.addresses.length :=
  (entriesFrom_describe parent depth id o).length_eq

mutual

/-- The numbers count up. -/
theorem ids_entriesFrom (parent : Int) (depth id : Nat) : (o : Outline) →
    (o.entriesFrom parent depth id).map (·.id) = List.range' id o.addresses.length
  | .node head loc children => by
    rw [entriesFrom, addresses, List.map_cons, ids_childEntries id _ _ 0 children, List.length_cons,
      List.range'_succ]

theorem ids_childEntries (parent : Int) (depth id i : Nat) : (children : List Outline) →
    (childEntries parent depth id children).map (·.id) =
      List.range' id (childAddresses i children).length
  | [] => rfl
  | child :: rest => by
    rw [childEntries, childAddresses, List.map_append, ids_entriesFrom parent depth id child,
      ids_childEntries parent depth _ (i + 1) rest, length_entriesFrom, List.length_append,
      List.length_map, List.range'_append_1]

end

mutual

/-- The parent of an entry is the entry of the node above. -/
theorem parent_entriesFrom (parent : Int) (depth id : Nat) : (o : Outline) →
    ∀ (k : Nat) (e : Entry), (o.entriesFrom parent depth id)[k]? = some e →
      ∃ address, o.addresses[k]? = some address ∧ (address = [] ∧ e.parent = parent ∨
        address ≠ [] ∧ ∃ j : Nat, o.addresses[j]? = some address.dropLast ∧ e.parent = id + j)
  | .node head loc children, 0, e, h => by
    rw [entriesFrom] at h
    cases h
    exact ⟨[], rfl, .inl ⟨rfl, rfl⟩⟩
  | .node head loc children, k + 1, e, h => by
    rw [entriesFrom, List.getElem?_cons_succ] at h
    obtain ⟨i, rest, hk, hparent⟩ := parent_childEntries id (depth + 1) (id + 1) 0 children k e h
    rw [addresses, List.getElem?_cons_succ]
    refine ⟨i :: rest, hk, .inr ⟨List.cons_ne_nil i rest, ?_⟩⟩
    rcases hparent with ⟨rfl, hparent⟩ | ⟨hrest, j, hj, hparent⟩
    · exact ⟨0, rfl, by simpa using hparent⟩
    · refine ⟨j + 1, ?_, by omega⟩
      rw [List.getElem?_cons_succ, hj, List.dropLast_cons_of_ne_nil hrest]

theorem parent_childEntries (parent : Int) (depth id i : Nat) : (children : List Outline) →
    ∀ (k : Nat) (e : Entry), (childEntries parent depth id children)[k]? = some e →
      ∃ j rest, (childAddresses i children)[k]? = some (j :: rest) ∧
        (rest = [] ∧ e.parent = parent ∨
          rest ≠ [] ∧ ∃ m : Nat, (childAddresses i children)[m]? = some (j :: rest.dropLast) ∧
            e.parent = id + m)
  | [], k, e, h => by simp [childEntries] at h
  | child :: others, k, e, h => by
    rw [childEntries] at h
    rw [childAddresses]
    rcases Nat.lt_or_ge k (child.entriesFrom parent depth id).length with hlt | hge
    · rw [List.getElem?_append_left hlt] at h
      rw [length_entriesFrom] at hlt
      obtain ⟨rest, hk, hparent⟩ := parent_entriesFrom parent depth id child k e h
      refine ⟨i, rest, ?_, ?_⟩
      · rw [List.getElem?_append_left (by simpa using hlt), List.getElem?_map, hk]
        rfl
      · refine hparent.imp_right fun ⟨hrest, m, hm, hparent⟩ => ⟨hrest, m, ?_, hparent⟩
        have hlt := (List.getElem?_eq_some_iff.1 hm).1
        rw [List.getElem?_append_left (by simpa using hlt), List.getElem?_map, hm]
        rfl
    · rw [List.getElem?_append_right hge] at h
      rw [length_entriesFrom] at h hge
      obtain ⟨j, rest, hk, hparent⟩ := parent_childEntries parent depth _ (i + 1) others _ e h
      refine ⟨j, rest, ?_, ?_⟩
      · rw [List.getElem?_append_right (by simpa using hge), List.length_map, hk]
      · refine hparent.imp_right fun ⟨hrest, m, hm, hparent⟩ =>
          ⟨hrest, child.addresses.length + m, ?_, ?_⟩
        · rw [List.getElem?_append_right (by simp), List.length_map, Nat.add_sub_cancel_left, hm]
        · rw [hparent]
          push_cast
          omega

end

/-- The entries number the nodes of the tree in pre-order, each once. The root has no parent. The
parent of any other entry is the one of the node above, which is the nearest entry before it that is
one level less deep. -/
structure Numbers (entries : List Entry) (o : Outline) : Prop where
  ascending : o.addresses.Pairwise (· < ·)
  every : ∀ address, address ∈ o.addresses ↔ (o.part? address).isSome
  length_eq : entries.length = o.addresses.length
  describes : ∀ (k : Nat) (e : Entry) (address : List Nat), entries[k]? = some e →
    o.addresses[k]? = some address → e.id = k ∧ e.depth = address.length ∧
      ∃ children, o.part? address = some (.node e.head e.loc children)
  root : ∀ (k : Nat) (e : Entry), entries[k]? = some e → o.addresses[k]? = some [] →
    k = 0 ∧ e.parent = -1
  parent : ∀ (k : Nat) (e : Entry) (address : List Nat), entries[k]? = some e →
    o.addresses[k]? = some address → address ≠ [] →
      ∃ (j : Nat) (above : Entry), j < k ∧ entries[j]? = some above ∧ e.parent = j ∧
        o.addresses[j]? = some address.dropLast ∧ above.depth + 1 = e.depth ∧
        ∀ (i : Nat) (between : Entry), j < i → i < k → entries[i]? = some between →
          between.depth + 1 ≠ e.depth

/-- Of two addresses the smaller one is listed first. -/
theorem lt_of_addresses_lt {o : Outline} {i j : Nat} {a b : List Nat}
    (ha : o.addresses[i]? = some a) (hb : o.addresses[j]? = some b) (h : a < b) : i < j := by
  obtain ⟨hi, rfl⟩ := List.getElem?_eq_some_iff.1 ha
  obtain ⟨hj, rfl⟩ := List.getElem?_eq_some_iff.1 hb
  rcases Nat.lt_trichotomy i j with hlt | rfl | hgt
  · exact hlt
  · exact absurd h (List.lt_irrefl _)
  · have hlt := List.pairwise_iff_getElem.1 (addresses_ascending o) j i hj hi hgt
    exact absurd h (List.lt_asymm hlt)

theorem addresses_lt_of_lt {o : Outline} {i j : Nat} {a b : List Nat}
    (ha : o.addresses[i]? = some a) (hb : o.addresses[j]? = some b) (h : i < j) : a < b := by
  obtain ⟨hi, rfl⟩ := List.getElem?_eq_some_iff.1 ha
  obtain ⟨hj, rfl⟩ := List.getElem?_eq_some_iff.1 hb
  exact List.pairwise_iff_getElem.1 (addresses_ascending o) i j hi hj h

theorem length_entries (o : Outline) : o.entries.length = o.addresses.length :=
  length_entriesFrom (-1) 0 0 o

theorem exists_entry {o : Outline} {k : Nat} {address : List Nat}
    (h : o.addresses[k]? = some address) : ∃ e, o.entries[k]? = some e :=
  ⟨_, List.getElem?_eq_getElem (length_entries o ▸ (List.getElem?_eq_some_iff.1 h).1)⟩

theorem id_eq_of_entries {o : Outline} {k : Nat} {e : Entry} (he : o.entries[k]? = some e) :
    e.id = k := by
  have hk : k < o.addresses.length := length_entries o ▸ (List.getElem?_eq_some_iff.1 he).1
  have hids : o.entries.map (·.id) = List.range' 0 o.addresses.length := ids_entriesFrom (-1) 0 0 o
  have hid := congrArg (·[k]?) hids
  simpa [he, List.getElem?_range' hk] using hid

/-- An entry tells of the node at its address. -/
theorem describes_entries {o : Outline} {k : Nat} {e : Entry} {address : List Nat}
    (he : o.entries[k]? = some e) (haddress : o.addresses[k]? = some address) :
    e.depth = address.length ∧
      ∃ children, o.part? address = some (.node e.head e.loc children) := by
  have hzip : (e, address) ∈ o.entries.zip o.addresses :=
    List.mem_of_getElem? (List.getElem?_zip_eq_some.2 ⟨he, haddress⟩)
  have hnode := (List.forall₂_iff_zip.1 (entriesFrom_describe (-1) 0 0 o)).2 hzip
  rwa [Nat.zero_add] at hnode

/-- What comes between the entry of a node and that of one of its children is deeper than the
node. -/
theorem depth_lt_of_between {o : Outline} {i j k n : Nat} {path : List Nat} {above between : Entry}
    (habove : o.entries[j]? = some above) (hbetween : o.entries[i]? = some between)
    (hj : o.addresses[j]? = some path) (hk : o.addresses[k]? = some (path ++ [n])) (hji : j < i)
    (hik : i < k) : above.depth < between.depth := by
  obtain ⟨inside, hinside⟩ : ∃ inside, o.addresses[i]? = some inside :=
    ⟨_, List.getElem?_eq_getElem (length_entries o ▸ (List.getElem?_eq_some_iff.1 hbetween).1)⟩
  rw [(describes_entries habove hj).1, (describes_entries hbetween hinside).1]
  exact length_lt_of_between (addresses_lt_of_lt hj hinside hji) (addresses_lt_of_lt hinside hk hik)

/-- Flattening a tree numbers its nodes. -/
theorem numbers_entries (o : Outline) : Numbers o.entries o := by
  have hparent := parent_entriesFrom (-1) 0 0 o
  refine ⟨addresses_ascending o, mem_addresses o, length_entries o,
    fun k e address he haddress => ⟨id_eq_of_entries he, describes_entries he haddress⟩,
    fun k e he hroot => ?_, fun k e address he haddress hne => ?_⟩
  · obtain ⟨address, haddress, h⟩ := hparent k e he
    cases hroot.symm.trans haddress
    rcases h with ⟨-, h⟩ | ⟨hne, -⟩
    · refine ⟨?_, h⟩
      obtain ⟨head, loc, children⟩ := o
      refine Nat.eq_zero_of_not_pos fun hpos => ?_
      exact absurd (addresses_lt_of_lt (i := 0) rfl hroot hpos) (List.lt_irrefl [])
    · exact absurd rfl hne
  · obtain ⟨address', haddress', h⟩ := hparent k e he
    cases haddress.symm.trans haddress'
    rcases h with ⟨rfl, -⟩ | ⟨-, j, hj, h⟩
    · exact absurd rfl hne
    obtain ⟨path, n, rfl⟩ := (List.eq_nil_or_concat' address).resolve_left hne
    rw [List.dropLast_concat] at hj ⊢
    obtain ⟨above, habove⟩ := exists_entry hj
    have hdepth : above.depth + 1 = e.depth := by
      rw [(describes_entries habove hj).1, (describes_entries he haddress).1, List.length_append,
        List.length_singleton]
    refine ⟨j, above, lt_of_addresses_lt hj haddress (lt_concat path n), habove, by simpa using h,
      hj, hdepth, fun i between hji hik hbetween => ?_⟩
    have hlt := depth_lt_of_between habove hbetween hj haddress hji hik
    omega

end Outline

end Ember
