import Ember.Datatype

namespace Ember

/-- A name known to the table. -/
structure Symbol where
  name : String
  type : Datatype
  deriving DecidableEq, Repr

/-- The identifiers seen so far. An entry's id is its place; entries are appended and never
removed, so an id stays valid. -/
structure SymbolTable where
  entries : Array Symbol
  deriving DecidableEq, Repr

namespace SymbolTable

def empty : SymbolTable := ⟨#[]⟩

def size (t : SymbolTable) : Nat := t.entries.size

/-- The id of `name`. -/
def find? (t : SymbolTable) (name : String) : Option Nat :=
  t.entries.findIdx? (·.name == name)

/-- The table with an entry for `name`, and its id. An entry that exists keeps its type. -/
def add (t : SymbolTable) (name : String) (type : Datatype) : Nat × SymbolTable :=
  match t.find? name with
  | some id => (id, t)
  | none => (t.size, ⟨t.entries.push ⟨name, type⟩⟩)

/-- The entry with the given id. Ids are integers because hand-made trees may hold any. -/
def get? (t : SymbolTable) (id : Int) : Option Symbol :=
  if id < 0 then none else t.entries[id.toNat]?

/-- What is reported for an id that the table never handed out. -/
def rangeMessage (t : SymbolTable) (id : Int) : String :=
  "symtab: entry id " ++ toString id ++ " out of range [0," ++ toString t.size ++ ")"

/-- The entry with the given id, or the report that there is none. -/
def lookup (t : SymbolTable) (id : Int) : Except String Symbol :=
  match t.get? id with
  | some symbol => .ok symbol
  | none => .error (t.rangeMessage id)

/-- The name of an entry; the empty text for an id out of range. -/
def nameOf (t : SymbolTable) (id : Int) : String := ((t.get? id).map (·.name)).getD ""

/-- Changes the type of an entry; an id out of range changes nothing. -/
def retype (t : SymbolTable) (id : Int) (type : Datatype) : SymbolTable :=
  if id < 0 then t else ⟨t.entries.modify id.toNat ({ · with type })⟩

/-- Changes the type of an entry, or reports that there is none. -/
def setType (t : SymbolTable) (id : Int) (type : Datatype) : Except String SymbolTable := do
  let _ ← t.lookup id
  return t.retype id type

/-- A name that was added is found. -/
theorem find?_add (t : SymbolTable) (name : String) (type : Datatype) :
    (t.add name type).2.find? name = some (t.add name type).1 := by
  unfold add
  split
  · assumption
  · rename_i h
    simp only [find?] at h ⊢
    simp [Array.findIdx?_push, h, size]

@[simp] theorem size_retype (t : SymbolTable) (id : Int) (type : Datatype) :
    (t.retype id type).size = t.size := by
  unfold retype
  split <;> simp [size]

/-- The table has an entry for each id below its size, and for no other. -/
theorem get?_isSome_iff (t : SymbolTable) (id : Int) :
    (t.get? id).isSome ↔ 0 ≤ id ∧ id < t.size := by
  unfold get? size
  split <;> simp <;> omega

end SymbolTable

end Ember
