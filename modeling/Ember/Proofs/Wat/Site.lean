import Ember.Proofs.Run.Frames
import Ember.Proofs.Wat.Declared

namespace Ember.Wat

open Exec

/-- The variable that a scope declares under a name. -/
def Scope.slot? (scope : Scope) (id : Int) : Option Slot :=
  (scope.find? (·.1 == id)).map (·.2)

@[simp] theorem Scope.slot?_nil (id : Int) : Scope.slot? [] id = none := rfl

theorem Scope.slot?_cons (key : Int) (slot : Slot) (scope : Scope) (id : Int) :
    Scope.slot? ((key, slot) :: scope) id = if key = id then some slot else scope.slot? id := by
  by_cases h : key = id <;> simp [slot?, h]

namespace View

variable {declared : Declared} {role : Role} {scope : Scope} {rest : List Scope} {id : Int}

theorem findIn_cons (id : Int) (scope : Scope) (rest : List Scope) :
    findIn id (scope :: rest) = (scope.slot? id).or (findIn id rest) := by
  rw [findIn.eq_2]
  unfold Scope.slot?
  cases scope.find? (·.1 == id) <;> rfl

theorem lookup_of_slot? {slot : Slot} (h : scope.slot? id = some slot) :
    lookup ⟨declared, role, scope :: rest⟩ id = some slot := by
  simp [lookup, findIn_cons, h]

theorem lookup_cons_of_none (h : scope.slot? id = none) :
    lookup ⟨declared, role, scope :: rest⟩ id = lookup ⟨declared, role, rest⟩ id := by
  simp [lookup, findIn_cons, h]

end View

/-- The scopes of a place of the program stand for the frames of a machine, the innermost first.
The last frame is the program's own, with a scope only where its own statements stand. Every other
frame is newer than those around it, and declares what its scope declares. -/
inductive Mirrors (vars : List (Int × Datatype)) (m : Machine) :
    Role → List Scope → List Nat → Prop where
  | start {top : Scope} (hroot : 0 < m.frames.size)
      (htop : ∀ id slot, top.slot? id = some slot →
        slot.place = .global id ∧ (id, slot.type) ∈ vars) :
      Mirrors vars m .start [top] [0]
  | function {result : Datatype} (hroot : 0 < m.frames.size) :
      Mirrors vars m (.function result) [] [0]
  | inner {role : Role} {scope : Scope} {rest : List Scope} {frame : Nat} {frames : List Nat}
      (hnew : ∀ k ∈ frames, k < frame) (hlt : frame < m.frames.size)
      (hlocal : ∀ id slot, scope.slot? id = some slot → ∃ x, slot.place = .local x)
      (htypes : ∀ id, m.typeAt frame id = (scope.slot? id).map (·.type))
      (hrest : Mirrors vars m role rest frames) :
      Mirrors vars m role (scope :: rest) (frame :: frames)

/-- What a name refers to: a variable of a block or call that is entered, or else what the program
itself declares. -/
inductive Refers (vars : List (Int × Datatype)) (m : Machine) (v : View)
    (frames : List Nat) (id : Int) : Prop where
  | inner {scope : Scope} {slot : Slot} {frame : Nat} {b : Binding} {x : Local}
      (hslot : v.lookup id = some slot) (hscope : scope.slot? id = some slot)
      (hplace : slot.place = .local x) (hmem : (scope, frame) ∈ v.scopes.zip frames)
      (hframe : frame ≠ 0) (hfind : findIn m.frames id frames = some (frame, b))
      (htype : b.type = slot.type)
  | root (hslot : ∀ slot, v.lookup id = some slot →
        slot.place = .global id ∧ (id, slot.type) ∈ vars)
      (hfind : findIn m.frames id frames = ((m.frameAt 0).find? id).map (0, ·))

namespace Mirrors

variable {vars : List (Int × Datatype)} {m m' : Machine} {role : Role} {scope : Scope}
  {scopes rest : List Scope} {frame : Nat} {frames : List Nat}

theorem zero_mem (h : Mirrors vars m role scopes frames) : 0 ∈ frames := by
  induction h with
  | start | function => exact List.mem_singleton_self 0
  | inner _ _ _ _ _ ih => exact List.mem_cons_of_mem _ ih

theorem lt_size (h : Mirrors vars m role scopes frames) : ∀ k ∈ frames, k < m.frames.size := by
  induction h with
  | start hroot | function hroot => exact fun k hk => List.mem_singleton.1 hk ▸ hroot
  | inner hnew hlt _ _ _ ih => exact List.forall_mem_cons.2 ⟨hlt, ih⟩

theorem scopes_ne (h : Mirrors vars m role scopes frames) (hrole : role = .start) :
    scopes ≠ [] := by
  subst hrole
  cases h <;> exact nofun

/-- A name is resolved in the frames as it is in the scopes. -/
theorem refers {declared : Declared} (h : Mirrors vars m role scopes frames)
    (hglobals : ∀ x ∈ declared.globals, x ∈ vars) (id : Int) :
    Refers vars m ⟨declared, role, scopes⟩ frames id := by
  have hsingle : findIn m.frames id [0] = ((m.frameAt 0).find? id).map (0, ·) := by
    unfold findIn Machine.frameAt
    cases Frame.find? (m.frames[0]?.getD []) id <;> rfl
  induction h with
  | @start top hroot htop =>
    refine .root (fun slot hslot => ?_) hsingle
    cases htop' : top.slot? id with
    | some slot' =>
      rw [View.lookup_of_slot? htop'] at hslot
      cases hslot
      exact htop id slot htop'
    | none =>
      rw [View.lookup_cons_of_none htop'] at hslot
      cases hslot
  | function hroot =>
    refine .root (fun slot hslot => ?_) hsingle
    obtain ⟨⟨key, type⟩, hfind, rfl⟩ := Option.map_eq_some_iff.1 hslot
    obtain rfl : key = id := by simpa using List.find?_some hfind
    exact ⟨rfl, hglobals _ (List.mem_of_find?_eq_some hfind)⟩
  | @inner role scope rest frame frames hnew hlt hlocal htypes hrest ih =>
    have hmirror := htypes id
    unfold Machine.typeAt Machine.frameAt at hmirror
    cases hslot : scope.slot? id with
    | some slot =>
      rw [hslot] at hmirror
      obtain ⟨b, hb, htype⟩ := Option.map_eq_some_iff.1 hmirror
      obtain ⟨x, hx⟩ := hlocal id slot hslot
      have hframe : frame ≠ 0 := Nat.ne_of_gt (hnew 0 hrest.zero_mem)
      exact .inner (View.lookup_of_slot? hslot) hslot hx List.mem_cons_self hframe
        (by simp only [findIn, hb]) htype
    | none =>
      rw [hslot] at hmirror
      have hnone := Option.map_eq_none_iff.1 hmirror
      have hskip : findIn m.frames id (frame :: frames) = findIn m.frames id frames := by
        simp only [findIn, hnone]
      cases ih with
      | inner hlookup hscope hplace hmem hne hfind htype =>
        exact .inner ((View.lookup_cons_of_none hslot).trans hlookup) hscope hplace
          (List.mem_cons_of_mem _ hmem) hne (hskip.trans hfind) htype
      | root hlookup hfind =>
        exact .root (fun slot h => hlookup slot ((View.lookup_cons_of_none hslot).symm.trans h))
          (hskip.trans hfind)

/-- Declarations in a frame that is none of these leave the scopes as they are. -/
theorem of_evolves {own : Option Nat} (h : Mirrors vars m role scopes frames)
    (hev : m.Evolves own m') (hown : ∀ k ∈ frames, k ≠ 0 → some k ≠ own) :
    Mirrors vars m' role scopes frames := by
  induction h with
  | start hroot htop => exact .start (Nat.lt_of_lt_of_le hroot hev.size_le) htop
  | function hroot => exact .function (Nat.lt_of_lt_of_le hroot hev.size_le)
  | @inner role scope rest frame frames hnew hlt hlocal htypes hrest ih =>
    have hframe : frame ≠ 0 := Nat.ne_of_gt (hnew 0 hrest.zero_mem)
    obtain ⟨hown, howns⟩ := List.forall_mem_cons.1 hown
    refine .inner hnew (Nat.lt_of_lt_of_le hlt hev.size_le) hlocal (fun id => ?_) (ih howns)
    rw [hev.typeAt_eq frame hlt (hown hframe), htypes id]

theorem evolve (h : Mirrors vars m role scopes frames) (hev : m.Evolves none m') :
    Mirrors vars m' role scopes frames :=
  h.of_evolves hev fun _ _ _ => nofun

/-- What happens in the innermost frame is no matter of the scopes around it. -/
theorem leave (h : Mirrors vars m role rest frames) (hnew : ∀ k ∈ frames, k < frame)
    (hev : m.Evolves (some frame) m') : Mirrors vars m' role rest frames :=
  h.of_evolves hev fun _ hk _ hown => Nat.ne_of_lt (hnew _ hk) (Option.some.inj hown)

/-- A block starts with an empty scope and an empty frame. -/
theorem enter (h : Mirrors vars m role scopes frames) :
    Mirrors vars { m with frames := m.frames.push [] } role ([] :: scopes)
      (m.frames.size :: frames) := by
  refine .inner h.lt_size (by simp) (fun id slot hslot => nomatch hslot) (fun id => ?_)
    (h.evolve (.push m))
  rw [Machine.typeAt, Machine.frameAt_push, Machine.frameAt_of_le (Nat.le_refl _)]
  rfl

/-- A local variable is declared in the innermost scope and the innermost frame. -/
theorem declareLocal (h : Mirrors vars m role (scope :: rest) (frame :: frames))
    (hframe : frame ≠ 0) (id : Int) (x : Local) (b : Binding) :
    Mirrors vars { m with frames := m.frames.modify frame (·.declare id b) } role
      (((id, ⟨.local x, b.type⟩) :: scope) :: rest) (frame :: frames) := by
  cases h with
  | start => exact absurd rfl hframe
  | inner hnew hlt hlocal htypes hrest =>
    refine .inner hnew (by simpa using hlt) (fun id' slot hslot => ?_) (fun id' => ?_)
      (hrest.leave hnew (.declare m frame id b))
    · rw [Scope.slot?_cons] at hslot
      split at hslot
      · cases hslot
        exact ⟨x, rfl⟩
      · exact hlocal id' slot hslot
    · have hold := htypes id'
      unfold Machine.typeAt at hold
      rw [Scope.slot?_cons, Machine.typeAt, Machine.frameAt_modify, if_pos ⟨rfl, hlt⟩,
        Frame.find?_declare]
      split
      · rfl
      · exact hold

/-- A global is declared in the program's own scope and frame. -/
theorem declareGlobal {top : Scope} (h : Mirrors vars m .start [top] [0]) {id : Int}
    (b : Binding) (hmem : (id, b.type) ∈ vars) :
    Mirrors vars { m with frames := m.frames.modify 0 (·.declare id b) } .start
      [(id, ⟨.global id, b.type⟩) :: top] [0] := by
  cases h with
  | start hroot htop =>
    refine .start (by simpa using hroot) fun id' slot hslot => ?_
    rw [Scope.slot?_cons] at hslot
    split at hslot
    · rename_i hid
      cases hslot
      exact hid ▸ ⟨rfl, hmem⟩
    · exact htop id' slot hslot
  | inner _ _ _ _ hrest => cases hrest

end Mirrors

end Ember.Wat
