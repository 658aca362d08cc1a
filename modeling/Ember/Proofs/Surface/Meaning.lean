import Ember.Proofs.Run.Storage
import Ember.Proofs.Surface.Forms

namespace Ember

open Exec

/-- A computation that runs alike beside itself adds frames, and leaves every function in frames
that are there. -/
theorem Machine.Closed.final {α : Type} {R : Placement → α → α → Prop} {p : Exec α} {m : Machine}
    (hm : m.Closed) (hp : Exec.Placed (.same m.frames.size) R p p) :
    (p.final m).Closed ∧ m.frames.size ≤ (p.final m).frames.size := by
  have hends := hp m m hm.placed_same
  unfold Exec.final
  generalize p m = x at hends ⊢
  cases hends with
  | ok hw _ hm' => exact ⟨hm'.closed, hm'.size_eq ▸ hw.size_le⟩
  | error hw hm' => exact ⟨hm'.closed, hm'.size_eq ▸ hw.size_le⟩

namespace Session

/-- The functions of the session were declared in frames that it has. The first frame is the
program's own. -/
def Closed (s : Session) : Prop := Machine.Closed ⟨s.frames, "", []⟩ ∧ 0 < s.frames.size

theorem closed_start (table : SymbolTable) : (start table).Closed := by
  refine ⟨fun f hf e he g hg => ?_, Nat.zero_lt_one⟩
  obtain rfl := List.mem_singleton.1 (Array.mem_toList_iff.2 hf)
  obtain rfl := List.mem_singleton.1 he
  cases hg

namespace Closed

variable {s : Session}

theorem lt_of_scope (h : s.Closed) : ∀ frame ∈ scope, frame < s.frames.size :=
  List.forall_mem_singleton.2 h.2

theorem placed_scope (h : s.Closed) : (Placement.same s.frames.size).Scope scope scope :=
  Placement.scope_same h.lt_of_scope

theorem heads_scope (h : s.Closed) : (Placement.same s.frames.size).Heads scope scope :=
  ⟨0, 0, rfl, rfl, Placement.same_at h.2⟩

theorem perform (h : s.Closed) {α : Type} {R : Placement → α → α → Prop} {p : Exec α}
    (hp : Exec.Placed (.same s.frames.size) R p p) : (s.perform p).session.Closed := by
  obtain ⟨hclosed, hsize⟩ := Machine.Closed.final h.1 hp
  unfold Closed
  rw [frames_perform]
  exact ⟨hclosed, Nat.lt_of_lt_of_le h.2 hsize⟩

end Closed

theorem placed_execAll (setting : Setting) {w : Placement} (hscope : w.Scope scope scope)
    (hheads : w.Heads scope scope) {last last' : Value} (hlast : last.Placed w last')
    (ss : List Stmt) :
    Exec.Placed w Value.Placed (execAll setting last ss) (execAll setting last' ss) := by
  have hinvoke := Closure.uniform_invokeWithin setting maxCalls
  induction ss generalizing w last last' with
  | nil => exact .pure hlast
  | cons s rest ih =>
    cases s with
    | expr e loc =>
      refine (Exec.Placed.eval hinvoke hscope e).bind fun w₁ hw₁ v v' hv => ?_
      exact ih (hw₁.scope hscope) (hw₁.heads hheads) hv
    | function | var | block | conditional | loop | returning =>
      refine (Exec.Placed.exec hinvoke hscope _ (.inr hheads)).bind
        fun w₁ hw₁ flow flow' hflow => ?_
      cases hflow with
      | next => exact ih (hw₁.scope hscope) (hw₁.heads hheads) (hlast.grow hw₁)
      | returned hv => exact .pure hv

/-- However the programs of a session are run and however their runs end. -/
theorem Reachable.closed {s : Session} (h : s.Reachable) : s.Closed := by
  induction h with
  | start table => exact closed_start table
  | @run s h table options p ih =>
    have hstart : Closed (Session.start table) := closed_start table
    refine hstart.perform (R := Exec.Same) ?_
    refine (Exec.Placed.execAll (Closure.uniform_invokeWithin _ maxCalls) hstart.placed_scope
      hstart.heads_scope p.body).bind fun w₁ hw₁ flow flow' hflow => ?_
    cases hflow with
    | next => exact .pure rfl
    | returned hv => exact .pure hv.exitCode_eq
  | @exec s h table options p ih =>
    have hstart : Closed { s with table } := ih
    exact hstart.perform (placed_execAll _ hstart.placed_scope hstart.heads_scope
      (.plain (v := .void) trivial) p.body)

end Session

/-- What the parser builds for a loop with clauses, for one with the test last and for an assignment
is the tree of the form that it has read. Run in whatever machine a program may have led to, the
tree of a loop prints what the loop prints and ends as the loop ends, with the same error or the
same value. So do the statements after it, for which the names have the same values. The tree of an
assignment that combines does to the variable what the assignment does. -/
theorem Surface.meaning_kept (depth : Nat) (setting : Setting) (room : Nat) {m : Machine}
    (hm : m.Closed) {frame : Nat} {outer : List Nat}
    (hscope : ∀ i ∈ frame :: outer, i < m.frames.size) :
    let expression := Parser.expression depth
    let statement := Parser.statement depth
    let invoke := Closure.invokeWithin setting room
    let scope := frame :: outer
    (∀ loc, Parser.forLoop expression statement loc =
        Loop.tree loc <$> Parser.clauses expression statement ∧
      Parser.doLoop expression statement loc =
        Loop.tree loc <$> Parser.testedLast expression statement) ∧
    (∀ operand t room, Parser.assignmentWithin operand (t :: room) =
      Sum.elim id Assignment.tree <$> Parser.operandOrAssignment operand room) ∧
    (∀ s form s', Parser.clauses expression statement s = .ok form s' ∨
        Parser.testedLast expression statement s = .ok form s' →
      ∀ loc rest, Exec.Abreast (.same m.frames.size) Flow.Placed
        (form.execThen setting invoke scope rest m)
        (Stmt.execAll setting invoke scope (form.tree loc :: rest) m)) ∧
    ∀ a : Assignment, ∀ op id loc, a.op = .compound op → a.target.unparen = .var id loc →
      a.tree.eval setting invoke scope m =
        combine setting invoke scope op id loc a.value a.loc m := by
  intro expression statement invoke scope
  have hinvoke : invoke.Uniform := Closure.uniform_invokeWithin setting room
  have hplaces := Placement.scope_same hscope
  refine ⟨fun loc => ⟨Parser.forLoop_eq _ _ loc, Parser.doLoop_eq _ _ loc⟩,
    fun operand t room => Parser.assignmentWithin_cons operand t room,
    fun s form s' hread loc rest => ?_, ?_⟩
  · have hbody : form.body.Contained := by
      rcases hread with h | h
      · exact Parser.contained_clauses depth s form s' h
      · exact Parser.contained_testedLast depth s form s' h
    simp only [Loop.execThen, Stmt.execAll]
    refine (Loop.placed_tree hinvoke hplaces hbody loc).bind
      (fun w hw flow flow' hflow => ?_) m m hm.placed_same
    cases hflow with
    | returned hv => exact .pure (.returned hv)
    | next =>
      have hheads : (Placement.same m.frames.size).Heads scope scope :=
        ⟨frame, frame, rfl, rfl, Placement.same_at (hscope frame List.mem_cons_self)⟩
      exact Exec.Placed.execAll hinvoke (hw.scope hplaces) (hw.heads hheads) rest
  · rintro ⟨_, target, value, combineLoc⟩ op id loc rfl htarget
    exact Surface.eval_compound (Closure.steady_invokeWithin setting room) hscope htarget

/-- A loop with all its clauses, the last of which is an assignment that combines. -/
theorem Surface.meaning_kept_counting :
    let source := Source.ofString "for (int32 i = 0; i < 2; i += 1) print(i);"
    let stream := TokenStream.ofSource "m" source
    let session := Session.start .empty
    let state : Parser.State := ⟨stream.tokens, stream.finish, none, session.table, []⟩
    let m : Machine := ⟨session.frames, "", []⟩
    ∃ form s', Parser.clauses (Parser.expression 4) (Parser.statement 4) state = .ok form s' ∧
      let setting : Setting := ⟨s'.table, 9, false, none⟩
      let invoke := Closure.invokeWithin setting 5
      m.Closed ∧ (∀ i ∈ [0], i < m.frames.size) ∧
        ((form.execThen setting invoke [0] []).final m).output = "0\n1\n" ∧
        ∀ loc, Exec.Abreast (.same m.frames.size) Flow.Placed
          (form.execThen setting invoke [0] [] m)
          (Stmt.execAll setting invoke [0] [form.tree loc] m) := by
  intro source stream session state m
  have hprints : (match Parser.clauses (Parser.expression 4) (Parser.statement 4) state with
      | .ok form s' =>
        let setting : Setting := ⟨s'.table, 9, false, none⟩
        ((form.execThen setting (Closure.invokeWithin setting 5) [0] []).final m).output ==
          "0\n1\n"
      | .error _ _ => false) = true := by
    decide +kernel
  have hclosed : session.Closed := (Session.Reachable.start .empty).closed
  cases hread : Parser.clauses (Parser.expression 4) (Parser.statement 4) state with
  | error d s' =>
    rw [hread] at hprints
    cases hprints
  | ok form s' =>
    rw [hread] at hprints
    have hkept := Surface.meaning_kept 4 ⟨s'.table, 9, false, none⟩ 5 hclosed.1 hclosed.lt_of_scope
    exact ⟨form, s', rfl, hclosed.1, hclosed.lt_of_scope, eq_of_beq hprints,
      fun loc => hkept.2.2.1 state form s' (.inl hread) loc []⟩

end Ember
