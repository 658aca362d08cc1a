import Ember.Proofs.Grammar.Program
import Ember.Proofs.Naming.Table

namespace Ember

namespace SymbolTable

/-- The names of the entries in the order of their ids. -/
def names (t : SymbolTable) : List String := t.entries.toList.map (·.name)

variable {t t' : SymbolTable} {name : String} {id : Nat}

theorem find?_eq_findIdx? (t : SymbolTable) (name : String) :
    t.find? name = t.names.findIdx? (· == name) := by
  rw [find?, names, List.findIdx?_map, ← List.findIdx?_toArray, Array.toArray_toList]
  rfl

theorem find?_of_names (h : t.names <+: t'.names) (hfind : t.find? name = some id) :
    t'.find? name = some id := by
  rw [find?_eq_findIdx?] at hfind ⊢
  obtain ⟨more, hmore⟩ := h
  rw [← hmore, List.findIdx?_append, hfind]
  rfl

theorem add_of_find? (h : t.find? name = some id) (type : Datatype) :
    t.add name type = (id, t) := by
  rw [add, h]

theorem names_prefix_add (t : SymbolTable) (name : String) (type : Datatype) :
    t.names <+: (t.add name type).2.names := by
  unfold add
  split
  · exact List.prefix_refl _
  · rw [names, names, Array.toList_push, List.map_append]
    exact List.prefix_append _ _

/-- A name that was entered has its id in every table that begins with the same names. -/
theorem add_of_names {type : Datatype} (h : (t.add name type).2.names <+: t'.names)
    (type' : Datatype) : t'.add name type' = ((t.add name type).1, t') :=
  add_of_find? (find?_of_names h (t.find?_add name type)) type'

@[simp] theorem names_retype (t : SymbolTable) (id : Int) (type : Datatype) :
    (t.retype id type).names = t.names := by
  unfold retype
  split
  · rfl
  · refine List.ext_getElem? fun i => ?_
    simp only [names, List.getElem?_map, Array.getElem?_toList, Array.getElem?_modify]
    split
    · rw [Option.map_map]
      rfl
    · rfl

theorem getElem?_names (t : SymbolTable) (i : Nat) :
    t.names[i]? = (t.entries[i]?).map (·.name) := by
  rw [names, List.getElem?_map, Array.getElem?_toList]

theorem keeps_of_names (h : t.names <+: t'.names) : t.Keeps t' := by
  intro id symbol hget
  obtain ⟨hid, hentry⟩ := get?_eq_some.1 hget
  have hname : t.names[id.toNat]? = some symbol.name := by
    rw [getElem?_names, hentry]
    rfl
  obtain ⟨more, hmore⟩ := h
  have hlt := (List.getElem?_eq_some_iff.1 hname).1
  have hsame : t'.names[id.toNat]? = t.names[id.toNat]? := by
    rw [← hmore, List.getElem?_append_left hlt]
  rw [← hsame, getElem?_names] at hname
  obtain ⟨symbol', hentry', hname'⟩ := Option.map_eq_some_iff.1 hname
  exact ⟨symbol', get?_eq_some.2 ⟨hid, hentry'⟩, hname'⟩

end SymbolTable

namespace Grammar

/-- In every table that begins with the names of `t`, `build` gives `a` and enters no name. -/
def Settled {α : Type} (build : SymbolTable → α × SymbolTable) (t : SymbolTable) (a : α) : Prop :=
  ∀ t', t.names <+: t'.names → ∃ t'', build t' = (a, t'') ∧ t''.names = t'.names

namespace Settled

variable {α β γ : Type} {f : SymbolTable → α × SymbolTable} {g : SymbolTable → β × SymbolTable}
  {t t' : SymbolTable} {a : α} {b : β}

theorem mono (h : t.names <+: t'.names) (hf : Settled f t a) : Settled f t' a :=
  fun u hu => hf u (h.trans hu)

/-- What needs no names. -/
theorem const (a : α) (t : SymbolTable) : Settled (fun t => (a, t)) t a :=
  fun t' _ => ⟨t', rfl, rfl⟩

theorem map (h : α → β) (hf : Settled f t a) :
    Settled (fun t => (h (f t).1, (f t).2)) t (h a) := by
  intro t' ht
  obtain ⟨t₁, hbuild, hnames⟩ := hf t' ht
  exact ⟨t₁, by simp only [hbuild], hnames⟩

/-- One part after the other. -/
theorem both (h : α → β → γ) (hf : Settled f t a) (hg : Settled g t b) :
    Settled (fun t => (h (f t).1 (g (f t).2).1, (g (f t).2).2)) t (h a b) := by
  intro t' ht
  obtain ⟨t₁, hbuild, hnames⟩ := hf t' ht
  obtain ⟨t₂, hbuild', hnames'⟩ := hg t₁ (hnames ▸ ht)
  exact ⟨t₂, by simp only [hbuild, hbuild'], hnames'.trans hnames⟩

/-- A name that is in the table. -/
theorem add {name : String} {type : Datatype} {t₀ : SymbolTable}
    (h : (t₀.add name type).2.names <+: t.names) (type' : Datatype) :
    Settled (fun t => ((t.add name type').1, (t.add name type').2)) t (t₀.add name type).1 := by
  intro t' ht
  have hadd := SymbolTable.add_of_names (h.trans ht) type'
  exact ⟨t', by simp only [hadd], rfl⟩

theorem keeps (hf : Settled f t a) : (f t).1 = a ∧ (f t).2.Keeps t := by
  obtain ⟨t', hbuild, hnames⟩ := hf t (List.prefix_refl _)
  rw [hbuild]
  exact ⟨rfl, SymbolTable.keeps_of_names (hnames ▸ List.prefix_refl _)⟩

end Settled

end Grammar

end Ember
