import Ember.Proofs.Wat.Operands
import Ember.Proofs.Wat.Supported

namespace Ember.Wat

open Exec

def Place.local? : Place → Option Local
  | .local x => some x
  | .global _ => none

/-- The local variables that a scope declares, also those that are declared anew. -/
def Scope.locals (scope : Scope) : List Local := scope.filterMap (·.2.place.local?)

def localsOf (scopes : List Scope) : List Local := scopes.flatMap Scope.locals

/-- No two variables in scope share a local variable, and those numbered from here on are free. -/
structure Progress.Tidy (p : Progress) : Prop where
  nodup : (localsOf p.scopes).Nodup
  bounded : ∀ i, .temp i ∈ localsOf p.scopes → i < p.locals

theorem localsOf_tail_sublist (scopes : List Scope) :
    (localsOf scopes.tail).Sublist (localsOf scopes) := by
  cases scopes with
  | nil => exact .slnil
  | cons scope rest => exact List.sublist_append_right _ _

mutual

/-- Lowering takes a new local variable for each that is declared. -/
theorem LowersStmt.tidy {declared : Declared} {role : Role} {p p' : Progress} {code : List Instr} :
    {s : Stmt} → LowersStmt declared role p s code p' → p.Tidy → p'.Tidy
  | _, .function _, h | _, .returning _, h | _, .expr _, h => h
  | _, .global _ hscopes _, h => by
    obtain ⟨hnodup, hbounded⟩ := h
    rw [hscopes] at hnodup hbounded
    exact ⟨hnodup, hbounded⟩
  | _, .local _ hscopes _, h => by
    obtain ⟨hnodup, hbounded⟩ := h
    rw [hscopes] at hnodup hbounded
    refine ⟨List.nodup_cons.2 ⟨fun hmem => Nat.lt_irrefl _ (hbounded _ hmem), hnodup⟩, fun i hi => ?_⟩
    rcases List.mem_cons.1 hi with hi | hi
    · cases hi
      exact Nat.lt_succ_self _
    · exact Nat.lt_succ_of_lt (hbounded i hi)
  | _, .block hbody, h => by
    obtain ⟨hnodup, hbounded⟩ := hbody.tidy ⟨h.nodup, h.bounded⟩
    exact ⟨(localsOf_tail_sublist _).nodup hnodup,
      fun i hi => hbounded i ((localsOf_tail_sublist _).subset hi)⟩
  | _, .ifThen _ hbody, h => hbody.tidy h
  | _, .ifElse _ hbody hother, h => hother.tidy (hbody.tidy h)
  | _, .loop _ hbody, h => hbody.tidy ⟨h.nodup, h.bounded⟩

theorem LowersStmts.tidy {declared : Declared} {role : Role} {p p' : Progress}
    {code : List Instr} : {ss : List Stmt} → LowersStmts declared role p ss code p' → p.Tidy →
    p'.Tidy
  | _, .nil, h => h
  | _, .cons hhead hrest, h => hrest.tidy (hhead.tidy h)

end

theorem Scope.mem_locals {scope : Scope} {id : Int} {slot : Slot} {x : Local}
    (hslot : scope.slot? id = some slot) (hplace : slot.place = .local x) : x ∈ scope.locals := by
  obtain ⟨e, he, rfl⟩ := Option.map_eq_some_iff.1 hslot
  exact List.mem_filterMap.2 ⟨e, List.mem_of_find?_eq_some he, by rw [hplace]; rfl⟩

/-- A local variable of a scope is that of one name. -/
theorem Scope.slot?_inj {scope : Scope} (hnodup : scope.locals.Nodup) {id id' : Int}
    {slot slot' : Slot} {x : Local} (hslot : scope.slot? id = some slot)
    (hplace : slot.place = .local x) (hslot' : scope.slot? id' = some slot')
    (hplace' : slot'.place = .local x) : id = id' := by
  induction scope with
  | nil => cases hslot
  | cons e rest ih =>
    obtain ⟨key, entry⟩ := e
    -- Only the first entry of a name counts, so that the local variable would occur twice.
    have hfirst : ∀ {id slot}, entry.place = .local x → Scope.slot? rest id = some slot →
        slot.place = .local x → False := by
      intro id slot hentry hrest hplace
      have hlocals : Scope.locals ((key, entry) :: rest) = x :: Scope.locals rest := by
        simp [Scope.locals, hentry, Place.local?]
      rw [hlocals] at hnodup
      exact (List.nodup_cons.1 hnodup).1 (mem_locals hrest hplace)
    have hrest : (Scope.locals rest).Nodup :=
      ((List.sublist_cons_self _ rest).filterMap _).nodup hnodup
    rw [Scope.slot?_cons] at hslot hslot'
    split at hslot
    · rename_i hid
      cases hslot
      split at hslot'
      · rename_i hid'
        exact hid.symm.trans hid'
      · exact (hfirst hplace hslot' hplace').elim
    · split at hslot'
      · cases hslot'
        exact (hfirst hplace' hslot hplace).elim
      · exact ih hrest hslot hslot'

/-- A local variable belongs to one name in one frame. -/
theorem eq_of_local {scopes : List Scope} {frames : List Nat} (hnodup : (localsOf scopes).Nodup)
    {scope scope' : Scope} {frame frame' : Nat} {id id' : Int} {slot slot' : Slot} {x : Local}
    (hmem : (scope, frame) ∈ scopes.zip frames) (hslot : scope.slot? id = some slot)
    (hplace : slot.place = .local x) (hmem' : (scope', frame') ∈ scopes.zip frames)
    (hslot' : scope'.slot? id' = some slot') (hplace' : slot'.place = .local x) :
    scope = scope' ∧ frame = frame' ∧ id = id' := by
  induction scopes generalizing frames with
  | nil => cases hmem
  | cons first rest ih =>
    cases frames with
    | nil => cases hmem
    | cons k frames =>
      obtain ⟨hfirst, hrest, hdisjoint⟩ := List.nodup_append.1 hnodup
      have hin : ∀ {scope frame id slot}, (scope, frame) ∈ rest.zip frames →
          Scope.slot? scope id = some slot → slot.place = .local x → x ∈ localsOf rest :=
        fun hmem hslot hplace =>
          List.mem_flatMap.2 ⟨_, (List.of_mem_zip hmem).1, Scope.mem_locals hslot hplace⟩
      rcases List.mem_cons.1 hmem with hhead | htail
      · cases hhead
        rcases List.mem_cons.1 hmem' with hhead' | htail'
        · cases hhead'
          exact ⟨rfl, rfl, Scope.slot?_inj hfirst hslot hplace hslot' hplace'⟩
        · exact absurd rfl (hdisjoint x (Scope.mem_locals hslot hplace) x (hin htail' hslot' hplace'))
      · rcases List.mem_cons.1 hmem' with hhead' | htail'
        · cases hhead'
          exact absurd rfl (hdisjoint x (Scope.mem_locals hslot' hplace') x (hin htail hslot hplace))
        · exact ih hrest htail htail'

namespace Mirrors

variable {vars : List (Int × Datatype)} {m : Machine} {role : Role} {scopes : List Scope}
  {frames : List Nat} {scope scope' : Scope} {frame : Nat}

/-- A frame mirrors one scope. -/
theorem scope_unique (h : Mirrors vars m role scopes frames)
    (hmem : (scope, frame) ∈ scopes.zip frames) (hmem' : (scope', frame) ∈ scopes.zip frames) :
    scope = scope' := by
  induction h with
  | start => exact congrArg Prod.fst ((List.mem_singleton.1 hmem).trans (List.mem_singleton.1 hmem').symm)
  | function => cases hmem
  | inner hnew _ _ _ _ ih =>
    rcases List.mem_cons.1 hmem with hhead | htail
    · cases hhead
      rcases List.mem_cons.1 hmem' with hhead' | htail'
      · cases hhead'
        rfl
      · exact absurd (hnew _ (List.of_mem_zip htail').2) (Nat.lt_irrefl _)
    · rcases List.mem_cons.1 hmem' with hhead' | htail'
      · cases hhead'
        exact absurd (hnew _ (List.of_mem_zip htail).2) (Nat.lt_irrefl _)
      · exact ih htail htail'

/-- The program's own frame holds no local variables. -/
theorem ne_zero (h : Mirrors vars m role scopes frames) (hmem : (scope, frame) ∈ scopes.zip frames)
    {id : Int} {slot : Slot} {x : Local} (hslot : scope.slot? id = some slot)
    (hplace : slot.place = .local x) : frame ≠ 0 := by
  induction h with
  | start hroot htop =>
    cases List.mem_singleton.1 hmem
    cases hplace.symm.trans (htop id slot hslot).1
  | function => cases hmem
  | inner hnew _ _ _ hrest ih =>
    rcases List.mem_cons.1 hmem with hhead | htail
    · cases hhead
      exact Nat.ne_of_gt (hnew 0 hrest.zero_mem)
    · exact ih htail

theorem lt_size_of_mem (h : Mirrors vars m role scopes frames)
    (hmem : (scope, frame) ∈ scopes.zip frames) : frame < m.frames.size :=
  h.lt_size frame (List.of_mem_zip hmem).2

end Mirrors

/-- What the program itself has written and declared is in the store. More may be written while a
line is printed. -/
structure RootAgrees (body : List Stmt) (pending : String) (m : Machine) (s : Store) : Prop where
  output_eq : s.output = m.output ++ pending
  placed : ∀ id ∈ (globalsIn body).map (·.1), (s.globals id).isSome
  globals : ∀ id type b, (id, type) ∈ globalsIn body → (m.frameAt 0).find? id = some b →
    b.type = type ∧ ∃ w, s.globals id = some w ∧ b.value.Holds type w

/-- The store holds every variable in scope, and there are `limit` local variables for those that
are declared. -/
structure Agrees (body : List Stmt) (pending : String) (limit : Nat) (scopes : List Scope)
    (frames : List Nat) (m : Machine) (s : Store) : Prop extends RootAgrees body pending m s where
  temps : ∀ i < limit, (s.locals (.temp i)).isSome
  locals : ∀ scope frame id slot x, (scope, frame) ∈ scopes.zip frames →
    scope.slot? id = some slot → slot.place = .local x →
    ∃ b w, (m.frameAt frame).find? id = some b ∧ s.locals x = some w ∧ b.value.Holds slot.type w

theorem RootAgrees.of_machine {body : List Stmt} {pending : String} {m m' : Machine} {s : Store}
    (h : RootAgrees body pending m s) (hframe : m'.frameAt 0 = m.frameAt 0)
    (houtput : m'.output = m.output) : RootAgrees body pending m' s :=
  ⟨houtput ▸ h.output_eq, h.placed, fun id type b hmem hfind =>
    h.globals id type b hmem (hframe ▸ hfind)⟩

namespace Store

/-- There is such a variable. -/
def Has (s : Store) : Place → Prop
  | .local x => (s.locals x).isSome
  | .global id => (s.globals id).isSome

def put (s : Store) (place : Place) (w : Int64) : Store :=
  match place with
  | .local x => s.setLocal x w
  | .global id => s.setGlobal id w

theorem isSome_setLocal {s : Store} {x y : Local} {w : Int64} (h : (s.locals y).isSome) :
    ((s.setLocal x w).locals y).isSome := by
  by_cases hy : y = x <;> simp [setLocal, hy, h]

theorem isSome_setGlobal {s : Store} {id key : Int} {w : Int64} (h : (s.globals key).isSome) :
    ((s.setGlobal id w).globals key).isSome := by
  by_cases hkey : key = id <;> simp [setGlobal, hkey, h]

end Store

section

variable {calls : Calls} {rounds : Nat} {s : Store} {place : Place} {w : Int64}

theorem Takes.tee (h : s.Has place) :
    Takes calls rounds place.tee [.i64 w] s [.i64 w] (s.put place w) := by
  cases place with
  | «local» x => exact Takes.localTee h
  | «global» id => exact (Takes.globalSet h).append (Takes.globalGet (if_pos rfl))

theorem Takes.set (h : s.Has place) :
    Takes calls rounds [place.set] [.i64 w] s [] (s.put place w) := by
  cases place with
  | «local» x => exact Takes.localSet h
  | «global» id => exact Takes.globalSet h

end

namespace Agrees

variable {declared : Declared} {body : List Stmt} {module : Module} {pending : String}
  {limit : Nat} {role : Role} {scope : Scope} {scopes rest : List Scope} {frame : Nat}
  {frames : List Nat} {m m' : Machine} {s s' : Store}

theorem of_machine (h : Agrees body pending limit scopes frames m s)
    (hframes : m'.frames = m.frames) (houtput : m'.output = m.output) :
    Agrees body pending limit scopes frames m' s := by
  have hat : ∀ k, m'.frameAt k = m.frameAt k := fun k => by simp only [Machine.frameAt, hframes]
  refine ⟨h.toRootAgrees.of_machine (hat 0) houtput, h.temps, ?_⟩
  intro scope frame id slot x
  rw [hat]
  exact h.locals scope frame id slot x

/-- A call changes nothing but what the program itself declares. -/
theorem of_call (h : Agrees body pending limit scopes frames m s)
    (hsite : Mirrors (globalsIn body) m role scopes frames)
    (hkeeps : Keeps declared body none [0] m m') (hroot : RootAgrees body pending m' s')
    (hlocals : s'.locals = s.locals) : Agrees body pending limit scopes frames m' s' := by
  refine ⟨hroot, hlocals ▸ h.temps, ?_⟩
  intro scope frame id slot x hmem hslot hplace
  have hout : frame ∉ [0] := fun hzero =>
    hsite.ne_zero hmem hslot hplace (List.mem_singleton.1 hzero)
  rw [hkeeps.confined frame (hsite.lt_size_of_mem hmem) hout, hlocals]
  exact h.locals scope frame id slot x hmem hslot hplace

theorem enter (h : Agrees body pending limit scopes frames m s) (frame : Nat) :
    Agrees body pending limit ([] :: scopes) (frame :: frames)
      { m with frames := m.frames.push [] } s := by
  refine ⟨h.toRootAgrees.of_machine (Machine.frameAt_push m 0) rfl, h.temps, ?_⟩
  intro scope frame id slot x hmem hslot hplace
  rw [Machine.frameAt_push]
  rcases List.mem_cons.1 hmem with hhead | htail
  · cases hhead
    cases hslot
  · exact h.locals scope frame id slot x htail hslot hplace

theorem leave (h : Agrees body pending limit (scope :: scopes) (frame :: frames) m s) :
    Agrees body pending limit scopes frames m s :=
  ⟨h.toRootAgrees, h.temps, fun scope frame id slot x hmem =>
    h.locals scope frame id slot x (List.mem_cons_of_mem _ hmem)⟩

/-- A local variable that belongs to no name in scope may be set. -/
theorem setLocal (h : Agrees body pending limit scopes frames m s) {x : Local}
    (hfree : x ∉ localsOf scopes) (w : Int64) :
    Agrees body pending limit scopes frames m (s.setLocal x w) := by
  refine ⟨⟨h.output_eq, h.placed, h.globals⟩, fun i hi => Store.isSome_setLocal (h.temps i hi), ?_⟩
  intro scope frame id slot y hmem hslot hplace
  have hne : y ≠ x := by
    rintro rfl
    exact hfree (List.mem_flatMap.2 ⟨_, (List.of_mem_zip hmem).1, Scope.mem_locals hslot hplace⟩)
  obtain ⟨b, w', hb, hw', hholds⟩ := h.locals scope frame id slot y hmem hslot hplace
  exact ⟨b, w', hb, (if_neg hne).trans hw', hholds⟩

/-- A variable whose place holds its word is declared. -/
theorem declareLocal (h : Agrees body pending limit (scope :: rest) (frame :: frames) m s)
    (hsite : Mirrors (globalsIn body) m role (scope :: rest) (frame :: frames))
    (hframe : frame ≠ 0) (id : Int) {x : Local} {b : Binding} {w : Int64}
    (hx : s.locals x = some w) (hholds : b.value.Holds b.type w) :
    Agrees body pending limit (((id, ⟨.local x, b.type⟩) :: scope) :: rest) (frame :: frames)
      { m with frames := m.frames.modify frame (·.declare id b) } s := by
  have hother : ∀ k, k ≠ frame →
      Machine.frameAt { m with frames := m.frames.modify frame (·.declare id b) } k =
        m.frameAt k := fun k hk => by
    rw [Machine.frameAt_modify, if_neg fun heq => hk heq.1.symm]
  refine ⟨h.toRootAgrees.of_machine (hother 0 hframe.symm) rfl, h.temps, ?_⟩
  intro scope' frame' id' slot y hmem hslot hplace
  have hlt := hsite.lt_size frame List.mem_cons_self
  rcases List.mem_cons.1 hmem with hhead | htail
  · cases hhead
    rw [Machine.frameAt_modify, if_pos ⟨rfl, hlt⟩, Frame.find?_declare]
    rw [Scope.slot?_cons] at hslot
    split at hslot
    · rename_i hid
      cases hslot
      cases hplace
      exact ⟨b, w, if_pos hid, hx, hholds⟩
    · rename_i hid
      rw [if_neg hid]
      exact h.locals scope frame id' slot y List.mem_cons_self hslot hplace
  · have hne : frame' ≠ frame := by
      cases hsite with
      | start => cases htail
      | inner hnew => exact Nat.ne_of_lt (hnew _ (List.of_mem_zip htail).2)
    rw [hother frame' hne]
    exact h.locals scope' frame' id' slot y (List.mem_cons_of_mem _ htail) hslot hplace

/-- A change of the program's own frame is none of the local variables. -/
theorem of_root (h : Agrees body pending limit scopes frames m s)
    (hsite : Mirrors (globalsIn body) m role scopes frames) {g : Frame → Frame}
    (hroot : RootAgrees body pending { m with frames := m.frames.modify 0 g } s')
    (hlocals : s'.locals = s.locals) :
    Agrees body pending limit scopes frames { m with frames := m.frames.modify 0 g } s' := by
  refine ⟨hroot, hlocals ▸ h.temps, ?_⟩
  intro scope frame id slot x hmem hslot hplace
  rw [Machine.frameAt_modify, if_neg fun heq => hsite.ne_zero hmem hslot hplace heq.1.symm, hlocals]
  exact h.locals scope frame id slot x hmem hslot hplace

/-- A global is declared and set. -/
theorem declareGlobal {top : Scope} (hprogram : Unambiguous declared body module)
    (h : Agrees body pending limit [top] [0] m s)
    (hsite : Mirrors (globalsIn body) m .start [top] [0]) {id : Int} {b : Binding} {w : Int64}
    (hmem : (id, b.type) ∈ globalsIn body) (hholds : b.value.Holds b.type w) :
    Agrees body pending limit [(id, ⟨.global id, b.type⟩) :: top] [0]
      { m with frames := m.frames.modify 0 (·.declare id b) } (s.setGlobal id w) := by
  have hlt := hsite.lt_size 0 hsite.zero_mem
  have hroot : RootAgrees body pending { m with frames := m.frames.modify 0 (·.declare id b) }
      (s.setGlobal id w) := by
    refine ⟨h.output_eq, fun id' hid' => Store.isSome_setGlobal (h.placed id' hid'), ?_⟩
    intro id' type b' hmem' hfind
    rw [Machine.frameAt_modify, if_pos ⟨rfl, hlt⟩, Frame.find?_declare] at hfind
    split at hfind
    · rename_i hid
      subst hid
      cases hfind
      obtain rfl := hprogram.type_unique hmem hmem'
      exact ⟨rfl, w, if_pos rfl, hholds⟩
    · rename_i hid
      obtain ⟨htype, w', hw', hholds'⟩ := h.globals id' type b' hmem' hfind
      exact ⟨htype, w', (if_neg (Ne.symm hid)).trans hw', hholds'⟩
  have hroles := h.of_root hsite hroot rfl
  refine ⟨hroles.toRootAgrees, hroles.temps, ?_⟩
  intro scope frame id' slot x hpair hslot hplace
  cases List.mem_singleton.1 hpair
  rw [Scope.slot?_cons] at hslot
  split at hslot
  · cases hslot
    cases hplace
  · exact hroles.locals top 0 id' slot x List.mem_cons_self hslot hplace

/-- What a name refers to is in the store. -/
theorem read (hprogram : Unambiguous declared body module)
    (h : Agrees body pending limit scopes frames m s)
    (hsite : Mirrors (globalsIn body) m role scopes frames) {id : Int} {slot : Slot}
    {x : Nat × Binding} (hslot : View.lookup ⟨declared, role, scopes⟩ id = some slot)
    (hfind : findIn m.frames id frames = some x) :
    x.2.type = slot.type ∧ ∃ w, x.2.value.Holds slot.type w ∧
      ∀ calls rounds, Takes calls rounds [slot.place.get] [] s [.i64 w] s := by
  cases hsite.refers hprogram.globalsOf.mem id with
  | @inner scope slot' frame b y hslot' hscope hplace hmem hframe hfind' htype =>
    cases hslot.symm.trans hslot'
    cases hfind.symm.trans hfind'
    obtain ⟨b', w, hb', hw, hholds⟩ := h.locals scope frame id slot y hmem hscope hplace
    cases (find?_of_findIn hfind').2.symm.trans hb'
    rw [hplace]
    exact ⟨htype, w, hholds, fun _ _ => Takes.localGet hw⟩
  | root hglobal hroot =>
    obtain ⟨hplace, hmem⟩ := hglobal slot hslot
    obtain ⟨b, hb, rfl⟩ := Option.map_eq_some_iff.1 (hroot.symm.trans hfind)
    obtain ⟨htype, w, hw, hholds⟩ := h.globals id slot.type b hmem hb
    rw [hplace]
    exact ⟨htype, w, hholds, fun _ _ => Takes.globalGet hw⟩

/-- A local variable that is in scope is set, in the machine and in the store. -/
theorem assignLocal (htidy : (localsOf scopes).Nodup)
    (hsite : Mirrors (globalsIn body) m role scopes frames)
    (h : Agrees body pending limit scopes frames m s) {id : Int} {slot : Slot} {y : Local}
    (hmem : (scope, frame) ∈ scopes.zip frames) (hscope : scope.slot? id = some slot)
    (hplace : slot.place = .local y) {v : Value} {w : Int64} (hholds : v.Holds slot.type w) :
    s.Has (.local y) ∧ Agrees body pending limit scopes frames
      { m with frames := m.frames.modify frame (·.assign id v) } (s.setLocal y w) := by
  obtain ⟨b, w', hb, hw', _⟩ := h.locals scope frame id slot y hmem hscope hplace
  have hlt := hsite.lt_size_of_mem hmem
  have hframe := hsite.ne_zero hmem hscope hplace
  have hroot : Machine.frameAt { m with frames := m.frames.modify frame (·.assign id v) } 0 =
      m.frameAt 0 := by rw [Machine.frameAt_modify, if_neg fun heq => hframe heq.1]
  refine ⟨by simp [Store.Has, hw'], ?_, fun i hi => Store.isSome_setLocal (h.temps i hi), ?_⟩
  · have hold := h.toRootAgrees.of_machine hroot rfl
    exact ⟨hold.output_eq, hold.placed, hold.globals⟩
  intro scope₂ frame₂ id₂ slot₂ y₂ hmem₂ hscope₂ hplace₂
  obtain ⟨b₂, w₂, hb₂, hw₂, hholds₂⟩ := h.locals scope₂ frame₂ id₂ slot₂ y₂ hmem₂ hscope₂ hplace₂
  by_cases hy : y₂ = y
  · -- One local variable, hence one name in one frame.
    subst hy
    obtain ⟨rfl, rfl, rfl⟩ := eq_of_local htidy hmem hscope hplace hmem₂ hscope₂ hplace₂
    cases hscope.symm.trans hscope₂
    rw [Machine.frameAt_modify, if_pos ⟨rfl, hlt⟩, Frame.find?_assign, hb₂]
    exact ⟨_, w, rfl, if_pos rfl, by simpa using hholds⟩
  · -- Another local variable, hence another name or another frame.
    have hother : ¬(frame = frame₂ ∧ id = id₂) := by
      rintro ⟨rfl, rfl⟩
      obtain rfl := hsite.scope_unique hmem hmem₂
      cases hscope.symm.trans hscope₂
      cases hplace.symm.trans hplace₂
      exact hy rfl
    refine ⟨b₂, w₂, ?_, (if_neg hy).trans hw₂, hholds₂⟩
    rw [Machine.frameAt_modify]
    split
    · rename_i hsame
      have hid : id ≠ id₂ := fun hid => hother ⟨hsame.1, hid⟩
      rw [Frame.find?_assign, hb₂]
      simp [hid]
    · exact hb₂

/-- A global is set, in the machine and in the store. -/
theorem assignGlobal (hprogram : Unambiguous declared body module)
    (hsite : Mirrors (globalsIn body) m role scopes frames)
    (h : Agrees body pending limit scopes frames m s) {id : Int} {type : Datatype}
    (hmem : (id, type) ∈ globalsIn body) {v : Value} {w : Int64} (hholds : v.Holds type w) :
    s.Has (.global id) ∧ Agrees body pending limit scopes frames
      { m with frames := m.frames.modify 0 (·.assign id v) } (s.setGlobal id w) := by
  refine ⟨h.placed id (List.mem_map_of_mem hmem), h.of_root hsite ?_ rfl⟩
  refine ⟨h.output_eq, fun id' hid' => Store.isSome_setGlobal (h.placed id' hid'), ?_⟩
  intro id' type' b' hmem' hfind
  rw [Machine.frameAt_modify, if_pos ⟨rfl, hsite.lt_size 0 hsite.zero_mem⟩,
    Frame.find?_assign] at hfind
  obtain ⟨b, hb, rfl⟩ := Option.map_eq_some_iff.1 hfind
  obtain ⟨htype, w', hw', hholds'⟩ := h.globals id' type' b hmem' hb
  by_cases hid : id = id'
  · subst hid
    obtain rfl := hprogram.type_unique hmem hmem'
    exact ⟨by simpa using htype, w, if_pos rfl, by simpa using hholds⟩
  · simp only [hid, if_false]
    exact ⟨htype, w', (if_neg (Ne.symm hid)).trans hw', hholds'⟩

/-- What a name refers to is set, in the machine and in the store. The machine `m` is the one
in which the name was looked up. -/
theorem write (hprogram : Unambiguous declared body module) (htidy : (localsOf scopes).Nodup)
    (hsite : Mirrors (globalsIn body) m role scopes frames) {id : Int} {slot : Slot}
    {x : Nat × Binding} (hslot : View.lookup ⟨declared, role, scopes⟩ id = some slot)
    (hfind : findIn m.frames id frames = some x)
    (hsite' : Mirrors (globalsIn body) m' role scopes frames)
    (h : Agrees body pending limit scopes frames m' s) {v : Value} {w : Int64}
    (hholds : v.Holds slot.type w) :
    s.Has slot.place ∧ Agrees body pending limit scopes frames
      { m' with frames := m'.frames.modify x.1 (·.assign id v) } (s.put slot.place w) := by
  cases hsite.refers hprogram.globalsOf.mem id with
  | inner hslot' hscope hplace hmem _ hfind' _ =>
    cases hslot.symm.trans hslot'
    cases hfind.symm.trans hfind'
    rw [hplace]
    exact h.assignLocal htidy hsite' hmem hscope hplace hholds
  | root hglobal hroot =>
    obtain ⟨hplace, hmem⟩ := hglobal slot hslot
    obtain ⟨b, hb, rfl⟩ := Option.map_eq_some_iff.1 (hroot.symm.trans hfind)
    rw [hplace]
    exact h.assignGlobal hprogram hsite' hmem hholds

end Agrees

end Ember.Wat
