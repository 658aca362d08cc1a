import Ember.Proofs.Grammar.Settled
import Std.Data.HashMap.Lemmas

namespace Ember

namespace SymbolTable

theorem getElem?_names_eq_some {t : SymbolTable} {i : Nat} {name : String} :
    t.names[i]? = some name ↔ ∃ x, t.get? i = some x ∧ x.name = name := by
  simp [getElem?_names, get?_eq_some]

theorem Distinct.names_nodup {t : SymbolTable} (h : t.Distinct) : t.names.Nodup := by
  rw [List.nodup_iff_pairwise_ne, List.pairwise_iff_getElem]
  intro i j hi hj hij heq
  obtain ⟨x, hx, hxname⟩ := getElem?_names_eq_some.1 (List.getElem?_eq_getElem hi)
  obtain ⟨y, hy, hyname⟩ := getElem?_names_eq_some.1 (List.getElem?_eq_getElem hj)
  have hsame := h hx hy (by rw [hxname, hyname, heq])
  omega

/-- Where names are distinct, a name is found at the id that has it. -/
theorem Distinct.find?_eq_some {t : SymbolTable} (h : t.Distinct) {name : String} {n : Nat} :
    t.find? name = some n ↔ ∃ x, t.get? n = some x ∧ x.name = name := by
  have hfound : ∀ {m : Nat}, t.find? name = some m → ∃ x, t.get? m = some x ∧ x.name = name := by
    intro m hm
    obtain ⟨hlt, hname, -⟩ := Array.findIdx?_eq_some_iff_getElem.1 hm
    exact ⟨_, get?_eq_some.2 ⟨by omega, Array.getElem?_eq_getElem hlt⟩, eq_of_beq hname⟩
  refine ⟨hfound, ?_⟩
  rintro ⟨x, hx, rfl⟩
  cases hfind : t.find? x.name with
  | none => exact absurd rfl (find?_eq_none.1 hfind n x hx)
  | some m =>
    obtain ⟨y, hy, hyname⟩ := hfound hfind
    have := h hy hx hyname
    exact congrArg some (by omega)

theorem add_of_find?_eq_none {t : SymbolTable} {name : String} (h : t.find? name = none)
    (type : Datatype) : t.add name type = (t.size, ⟨t.entries.push ⟨name, type⟩⟩) := by
  rw [add, h]

theorem lookup_eq_ok {t : SymbolTable} {id : Int} {x : Symbol} :
    t.lookup id = .ok x ↔ t.get? id = some x := by
  unfold lookup
  cases t.get? id <;> simp

/-- A table that is kept with the ids of its names. -/
structure Indexed where
  entries : Array Symbol
  index : Std.HashMap String Nat

namespace Indexed

/-- What a call leaves behind when it panics is what the next one finds. -/
abbrev Call := EStateM String Indexed

def empty : Indexed := ⟨#[], ∅⟩

/-- The table without the index. -/
def table (t : Indexed) : SymbolTable := ⟨t.entries⟩

def add (name : String) (type : Datatype) : Call Nat := do
  let t ← get
  match t.index[name]? with
  | some id => return id
  | none =>
    set (⟨t.entries.push ⟨name, type⟩, t.index.insert name t.entries.size⟩ : Indexed)
    return t.entries.size

def find (name : String) : Call (Option Nat) := do
  let t ← get
  return t.index[name]?

def lookup (id : Int) : Call Symbol := do
  let t ← get
  if h : 0 ≤ id ∧ id < t.entries.size then
    have hid : id.toNat < t.entries.size := by omega
    return t.entries[id.toNat]
  else
    throw (t.table.rangeMessage id)

def nameOf (id : Int) : Call String := do
  let symbol ← lookup id
  return symbol.name

def setType (id : Int) (type : Datatype) : Call Unit := do
  let _ ← lookup id
  modify fun t => { t with entries := t.entries.modify id.toNat ({ · with type }) }

def symbols : Call (Array Symbol) := do
  let t ← get
  return t.entries

end Indexed

/-- What a table can be asked for. -/
inductive Request
  | add (name : String) (type : Datatype)
  | find (name : String)
  | lookup (id : Int)
  | nameOf (id : Int)
  | setType (id : Int) (type : Datatype)
  | symbols
  deriving DecidableEq, Repr

inductive Answer
  | id (id : Nat)
  | found (id : Option Nat)
  | symbol (symbol : Symbol)
  | name (name : String)
  | done
  | symbols (symbols : Array Symbol)
  deriving DecidableEq, Repr

namespace Request

/-- The request to a table with an index. -/
def call : Request → Indexed.Call Answer
  | .add name type => return .id (← Indexed.add name type)
  | .find name => return .found (← Indexed.find name)
  | .lookup id => return .symbol (← Indexed.lookup id)
  | .nameOf id => return .name (← Indexed.nameOf id)
  | .setType id type => do
    Indexed.setType id type
    return .done
  | .symbols => return .symbols (← Indexed.symbols)

/-- The request to a table without one. -/
def serve (t : SymbolTable) : Request → Except String (Answer × SymbolTable)
  | .add name type => .ok (.id (t.add name type).1, (t.add name type).2)
  | .find name => .ok (.found (t.find? name), t)
  | .lookup id => return (.symbol (← t.lookup id), t)
  | .nameOf id => return (.name (← t.lookup id).name, t)
  | .setType id type => return (.done, ← t.setType id type)
  | .symbols => .ok (.symbols t.entries, t)

/-- The table without an index that is left. -/
def next (t : SymbolTable) (request : Request) : SymbolTable :=
  match request.serve t with
  | .ok (_, t') => t'
  | .error _ => t

/-- The answer, or the message of the panic. -/
def answer (request : Request) (t : Indexed) : Except String Answer :=
  match request.call t with
  | .ok answer _ => .ok answer
  | .error message _ => .error message

/-- The table that is left, whether or not the request panicked. -/
def leave (t : Indexed) (request : Request) : Indexed :=
  match request.call t with
  | .ok _ t' => t'
  | .error _ t' => t'

/-- The request is answered with the id of the name. -/
def Tells (t : Indexed) (request : Request) (name : String) (id : Nat) : Prop :=
  (∃ type, request = .add name type ∧ request.answer t = .ok (.id id)) ∨
    (request = .find name ∧ request.answer t = .ok (.found (some id)))

end Request

/-- The table after a row of requests to an empty one. -/
def served (requests : List Request) : SymbolTable := requests.foldl Request.next empty

namespace Indexed

variable {t : Indexed}

/-- The table after a row of requests to a new one. -/
def after (requests : List Request) : Indexed := requests.foldl Request.leave empty

/-- The index gives what a search of the entries gives, and no name has two entries. -/
structure InStep (t : Indexed) : Prop where
  index : ∀ name, t.index[name]? = t.table.find? name
  distinct : t.table.Distinct

theorem inStep_empty : empty.InStep where
  index name := by simp [empty, table, find?]
  distinct := Built.empty.distinct

theorem bind_get {α : Type} (f : Indexed → Call α) (t : Indexed) : (get >>= f) t = f t t := rfl

theorem lookup_eq (t : Indexed) (id : Int) :
    lookup id t = match t.table.lookup id with
      | .ok symbol => .ok symbol t
      | .error message => .error message t := by
  unfold lookup SymbolTable.lookup get?
  rw [bind_get]
  by_cases h : 0 ≤ id ∧ id < t.entries.size
  · have hid : id.toNat < t.entries.size := by omega
    have hget : t.table.entries[id.toNat]? = some t.entries[id.toNat] :=
      Array.getElem?_eq_getElem hid
    rw [dif_pos h, if_neg (by omega), hget]
    rfl
  · have hget : (if id < 0 then none else t.table.entries[id.toNat]?) = none := by
      split
      · rfl
      · exact Array.getElem?_eq_none (by simp only [table]; omega)
    rw [dif_neg h, hget]
    rfl

theorem add_eq (t : Indexed) (name : String) (type : Datatype) :
    add name type t = match t.index[name]? with
      | some id => .ok id t
      | none =>
        .ok t.entries.size ⟨t.entries.push ⟨name, type⟩, t.index.insert name t.entries.size⟩ := by
  unfold add
  rw [bind_get]
  cases t.index[name]? <;> rfl

theorem setType_eq (t : Indexed) (id : Int) (type : Datatype) :
    setType id type t = match t.table.lookup id with
      | .ok _ => .ok () { t with entries := t.entries.modify id.toNat ({ · with type }) }
      | .error message => .error message t := by
  unfold setType
  cases h : t.table.lookup id <;>
    simp only [bind, EStateM.bind, lookup_eq, h]
  rfl

/-- A name enters the entries and the index together. -/
theorem InStep.push (h : t.InStep) {name : String} (hnew : t.table.find? name = none)
    (type : Datatype) :
    (Indexed.mk (t.entries.push ⟨name, type⟩) (t.index.insert name t.entries.size)).InStep where
  index other := by
    have hsearch : SymbolTable.find? ⟨t.entries.push ⟨name, type⟩⟩ other =
        (t.table.find? other).or (if name = other then some t.entries.size else none) := by
      simp [find?, table, Array.findIdx?_push]
    rw [table, hsearch, ← h.index other, Std.HashMap.getElem?_insert]
    by_cases hother : name = other
    · subst hother
      simp [h.index, hnew]
    · simp [hother]
  distinct := by
    have hadd := h.distinct.add name type
    rwa [add_of_find?_eq_none hnew] at hadd

/-- Types have no part in what the index holds. -/
theorem InStep.retype (h : t.InStep) {id : Int} (hid : 0 ≤ id) (type : Datatype) :
    (Indexed.mk (t.entries.modify id.toNat ({ · with type })) t.index).InStep := by
  have htable : SymbolTable.mk (t.entries.modify id.toNat ({ · with type })) =
      t.table.retype id type := by
    rw [SymbolTable.retype, if_neg (by omega), table]
  constructor
  · intro name
    rw [table, htable, find?_eq_findIdx?, names_retype, ← find?_eq_findIdx?]
    exact h.index name
  · rw [table, htable]
    exact h.distinct.retype id type

/-- What a request does to a table with an index, and what it does to the table without. -/
theorem InStep.call (h : t.InStep) (request : Request) :
    (∃ answer t', request.call t = .ok answer t' ∧ t'.InStep ∧
        request.serve t.table = .ok (answer, t'.table)) ∨
      ∃ message, request.call t = .error message t ∧ request.serve t.table = .error message := by
  cases request with
  | add name type =>
    refine .inl ?_
    have hindex := h.index name
    cases hfind : t.table.find? name with
    | some id =>
      rw [hfind] at hindex
      refine ⟨.id id, t, ?_, h, ?_⟩
      · simp [Request.call, bind, EStateM.bind, pure, EStateM.pure, add_eq, hindex]
      · simp [Request.serve, add_of_find? hfind]
    | none =>
      rw [hfind] at hindex
      refine ⟨.id t.entries.size, _, ?_, h.push hfind type, ?_⟩
      · simp [Request.call, bind, EStateM.bind, pure, EStateM.pure, add_eq, hindex]
      · rw [Request.serve, add_of_find?_eq_none hfind]
        rfl
  | find name =>
    exact .inl ⟨.found t.index[name]?, t, rfl, h, by rw [Request.serve, h.index]⟩
  | lookup id =>
    cases hlookup : t.table.lookup id with
    | ok symbol =>
      refine .inl ⟨.symbol symbol, t, ?_, h, ?_⟩
      · simp [Request.call, bind, EStateM.bind, pure, EStateM.pure, lookup_eq, hlookup]
      · simp [Request.serve, hlookup, bind, Except.bind, pure, Except.pure]
    | error message =>
      refine .inr ⟨message, ?_, ?_⟩
      · simp [Request.call, bind, EStateM.bind, lookup_eq, hlookup]
      · simp [Request.serve, hlookup, bind, Except.bind]
  | nameOf id =>
    cases hlookup : t.table.lookup id with
    | ok symbol =>
      refine .inl ⟨.name symbol.name, t, ?_, h, ?_⟩
      · simp [Request.call, nameOf, bind, EStateM.bind, pure, EStateM.pure, lookup_eq, hlookup]
      · simp [Request.serve, hlookup, bind, Except.bind, pure, Except.pure]
    | error message =>
      refine .inr ⟨message, ?_, ?_⟩
      · simp [Request.call, nameOf, bind, EStateM.bind, lookup_eq, hlookup]
      · simp [Request.serve, hlookup, bind, Except.bind]
  | setType id type =>
    cases hlookup : t.table.lookup id with
    | ok symbol =>
      have hid : 0 ≤ id := (get?_eq_some.1 (lookup_eq_ok.1 hlookup)).1
      refine .inl ⟨.done, _, ?_, h.retype hid type, ?_⟩
      · simp [Request.call, bind, EStateM.bind, pure, EStateM.pure, setType_eq, hlookup]
      · rw [Request.serve, SymbolTable.setType, hlookup, SymbolTable.retype, if_neg (by omega)]
        rfl
    | error message =>
      refine .inr ⟨message, ?_, ?_⟩
      · simp [Request.call, bind, EStateM.bind, setType_eq, hlookup]
      · simp [Request.serve, SymbolTable.setType, hlookup, bind, Except.bind]
  | symbols => exact .inl ⟨.symbols t.entries, t, rfl, h, rfl⟩

theorem InStep.answer_eq (h : t.InStep) (request : Request) :
    request.answer t = (request.serve t.table).map (·.1) := by
  rcases h.call request with ⟨answer, t', hcall, -, hserve⟩ | ⟨message, hcall, hserve⟩ <;>
    rw [Request.answer, hcall, hserve] <;> rfl

theorem InStep.table_leave (h : t.InStep) (request : Request) :
    (request.leave t).table = request.next t.table := by
  rcases h.call request with ⟨answer, t', hcall, -, hserve⟩ | ⟨message, hcall, hserve⟩ <;>
    rw [Request.leave, Request.next, hcall, hserve]

theorem InStep.leave (h : t.InStep) (request : Request) : (request.leave t).InStep := by
  rcases h.call request with ⟨answer, t', hcall, hstep, -⟩ | ⟨message, hcall, -⟩
  · rwa [Request.leave, hcall]
  · rwa [Request.leave, hcall]

/-- Requests one after the other keep a table and its index in step. -/
theorem InStep.foldl (h : t.InStep) (requests : List Request) :
    (requests.foldl Request.leave t).InStep ∧
      (requests.foldl Request.leave t).table = requests.foldl Request.next t.table := by
  induction requests generalizing t with
  | nil => exact ⟨h, rfl⟩
  | cons request rest ih =>
    rw [List.foldl_cons, List.foldl_cons, ← h.table_leave request]
    exact ih (h.leave request)

end Indexed

/-- What a request changes in a table: names are entered behind the others, and the type of an entry
changes when it is set. -/
theorem Request.next_eq (t : SymbolTable) (request : Request) :
    request.next t = t ∨ (∃ name type, request.next t = (t.add name type).2) ∨
      ∃ id type, request = .setType id type ∧ request.next t = t.retype id type := by
  cases request with
  | add name type => exact .inr (.inl ⟨name, type, rfl⟩)
  | find name => exact .inl rfl
  | lookup id =>
    cases h : t.lookup id <;> exact .inl (by simp [next, serve, h, bind, Except.bind, pure,
      Except.pure])
  | nameOf id =>
    cases h : t.lookup id <;> exact .inl (by simp [next, serve, h, bind, Except.bind, pure,
      Except.pure])
  | setType id type =>
    cases h : t.lookup id with
    | ok symbol =>
      refine .inr (.inr ⟨id, type, rfl, ?_⟩)
      simp [next, serve, SymbolTable.setType, h, bind, Except.bind, pure, Except.pure]
    | error message =>
      refine .inl ?_
      simp [next, serve, SymbolTable.setType, h, bind, Except.bind]
  | symbols => exact .inl rfl

theorem Request.names_prefix_next (t : SymbolTable) (request : Request) :
    t.names <+: (request.next t).names := by
  rcases request.next_eq t with h | ⟨name, type, h⟩ | ⟨id, type, -, h⟩ <;>
    simp only [h, names_retype]
  · exact List.prefix_refl _
  · exact t.names_prefix_add name type
  · exact List.prefix_refl _

theorem names_prefix_foldl (t : SymbolTable) (requests : List Request) :
    t.names <+: (requests.foldl Request.next t).names := by
  induction requests generalizing t with
  | nil => exact List.prefix_refl _
  | cons request rest ih => exact (request.names_prefix_next t).trans (ih (request.next t))

/-- Another type is found for an id only where it was set. -/
theorem Request.type_next {t : SymbolTable} {request : Request} {id : Int} {x y : Symbol}
    (hx : t.get? id = some x) (hy : (request.next t).get? id = some y) (hne : x.type ≠ y.type) :
    request = .setType id y.type := by
  rcases request.next_eq t with h | ⟨name, type, h⟩ | ⟨a, type, rfl, h⟩ <;> rw [h] at hy
  · cases hx.symm.trans hy
    exact absurd rfl hne
  · rcases get?_add_eq_some.1 hy with hy | ⟨-, rfl, -⟩
    · cases hx.symm.trans hy
      exact absurd rfl hne
    · have := (get?_isSome_iff t t.size).1 (by simp [hx])
      omega
  · obtain ⟨z, hz, rfl⟩ := get?_retype.1 hy
    cases hx.symm.trans hz
    split at hne
    · rename_i hid
      rw [if_pos hid, hid]
    · exact absurd rfl hne

namespace Indexed

variable {t : Indexed}

theorem InStep.answer_nameOf (h : t.InStep) {id : Int} {name : String} :
    (Request.nameOf id).answer t = .ok (.name name) ↔
      ∃ x, t.table.get? id = some x ∧ x.name = name := by
  rw [h.answer_eq, Request.serve]
  cases hlookup : t.table.lookup id with
  | ok x =>
    have hget := lookup_eq_ok.1 hlookup
    simp [bind, Except.bind, pure, Except.pure, Except.map, hget]
  | error message =>
    have hget : t.table.get? id = none :=
      Option.eq_none_iff_forall_not_mem.2 fun x hx => by cases hlookup.symm.trans (lookup_eq_ok.2 hx)
    simp [bind, Except.bind, Except.map, hget]

/-- A search finds the id whose name it is. -/
theorem InStep.answer_find (h : t.InStep) {name : String} {n : Nat} :
    (Request.find name).answer t = .ok (.found (some n)) ↔
      ∃ x, t.table.get? n = some x ∧ x.name = name := by
  rw [h.answer_eq, ← h.distinct.find?_eq_some]
  constructor
  · intro hanswer
    injection hanswer with hanswer
    injection hanswer
  · intro hfind
    rw [Request.serve, hfind]
    rfl

/-- The id that a request tells is the id of the name. -/
theorem InStep.getElem?_of_tells (h : t.InStep) {request : Request} {name : String} {id : Nat}
    (htells : request.Tells t name id) : (request.next t.table).names[id]? = some name := by
  rcases htells with ⟨type, rfl, hanswer⟩ | ⟨rfl, hanswer⟩
  · rw [h.answer_eq] at hanswer
    cases hanswer
    have hadd := (h.distinct.add name type).find?_eq_some.1 (t.table.find?_add name type)
    exact getElem?_names_eq_some.2 hadd
  · exact getElem?_names_eq_some.2 (h.answer_find.1 hanswer)

/-- Names stay where they were told to be. -/
theorem InStep.answer_nameOf_of_tells (h : t.InStep) {request : Request} {name : String} {id : Nat}
    (htells : request.Tells t name id) (rest : List Request) :
    (Request.nameOf id).answer (rest.foldl Request.leave (request.leave t)) = .ok (.name name) := by
  obtain ⟨hrest, htable⟩ := (h.leave request).foldl rest
  rw [h.table_leave] at htable
  have hname := h.getElem?_of_tells htells
  obtain ⟨more, hmore⟩ := names_prefix_foldl (request.next t.table) rest
  rw [hrest.answer_nameOf, htable, ← getElem?_names_eq_some, ← hmore]
  exact (List.getElem?_append_left (List.getElem?_eq_some_iff.1 hname).1).trans hname

/-- A panic leaves the table and the index alone. -/
theorem InStep.leave_of_error (h : t.InStep) {request : Request} {message : String}
    (hanswer : request.answer t = .error message) : request.leave t = t := by
  rcases h.call request with ⟨answer, t', hcall, -, -⟩ | ⟨message', hcall, -⟩
  · rw [Request.answer, hcall] at hanswer
    cases hanswer
  · rw [Request.leave, hcall]

/-- After any requests to a new table, panics among them: the index serves what the entries serve,
names are distinct, a name is found at its id and nowhere else, an id that was told keeps its name,
a type changes only where it is set, and a panic changes nothing. -/
theorem after_requests (requests : List Request) :
    let t := after requests
    t.table = served requests ∧
    (∀ request : Request, request.answer t = (request.serve t.table).map (·.1)) ∧
    t.table.names.Nodup ∧
    (∀ (name : String) (id : Int),
      (∃ n : Nat, id = n ∧ (Request.find name).answer t = .ok (.found (some n))) ↔
        id < t.entries.size ∧ (Request.nameOf id).answer t = .ok (.name name)) ∧
    (∀ (request : Request) (rest : List Request) (name : String) (id : Nat),
      request.Tells t name id →
        (Request.nameOf id).answer (after (requests ++ request :: rest)) = .ok (.name name)) ∧
    (∀ (request : Request) (id : Int) (x y : Symbol), t.table.get? id = some x →
      (request.leave t).table.get? id = some y → x.type ≠ y.type →
        request = .setType id y.type) ∧
    (∀ (request : Request) (message : String),
      request.answer t = .error message → request.leave t = t) := by
  intro t
  have h : t.InStep := (inStep_empty.foldl requests).1
  refine ⟨(inStep_empty.foldl requests).2, h.answer_eq, h.distinct.names_nodup, ?_, ?_, ?_,
    fun request message => h.leave_of_error⟩
  · intro name id
    rw [h.answer_nameOf]
    constructor
    · rintro ⟨n, rfl, hfind⟩
      obtain ⟨x, hx, hname⟩ := h.answer_find.1 hfind
      exact ⟨((get?_isSome_iff t.table n).1 (by simp [hx])).2, x, hx, hname⟩
    · rintro ⟨-, x, hx, hname⟩
      have hid := (get?_eq_some.1 hx).1
      refine ⟨id.toNat, by omega, h.answer_find.2 ⟨x, ?_, hname⟩⟩
      rwa [Int.toNat_of_nonneg hid]
  · intro request rest name id htells
    have hafter : after (requests ++ request :: rest) =
        rest.foldl Request.leave (request.leave t) := List.foldl_append
    rw [hafter]
    exact h.answer_nameOf_of_tells htells rest
  · intro request id x y hx hy hne
    rw [h.table_leave] at hy
    exact Request.type_next hx hy hne

end Indexed

end SymbolTable

end Ember
