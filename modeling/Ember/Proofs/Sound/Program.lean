import Ember.Proofs.Sound.Lower
import Ember.Proofs.Sound.Parser
import Ember.Proofs.Sound.Printing
import Ember.Proofs.Sound.Run

namespace Ember

open Exec

/-- A program that was read from a source text whose names are in the table, with its constants
folded or not. -/
inductive Program.OfSource (table : SymbolTable) : Program → Prop
  | parse (file : String) (source : Source) {first : SymbolTable}
    (h : (Program.parse file source first).table.Keeps table) :
    OfSource table (Program.parse file source first).program
  | fold {p : Program} (h : OfSource table p) : OfSource table p.fold

/-- A session as any number of runs of programs from source texts leaves it, in whatever way they
end. The table of names may grow in between. -/
inductive Session.OfSources : Session → Prop
  | start (table : SymbolTable) : OfSources (start table)
  | grow {s : Session} (h : OfSources s) {table : SymbolTable} (hkeeps : s.table.Keeps table) :
    OfSources { s with table }
  | run {s : Session} (h : OfSources s) {p : Program} (hp : p.OfSource s.table)
    (options : RunOptions) : OfSources (s.run options p).session
  | exec {s : Session} (h : OfSources s) {p : Program} (hp : p.OfSource s.table)
    (options : RunOptions) : OfSources (s.exec options p).session

/-- A run reached nothing out of range: it went as it does with every access checked, and stopped at
no breach, if it stopped early. -/
structure Ran.Intact {α : Type} (ran checked : Ran α) : Prop where
  checked_eq : checked = ran
  unbroken : ∀ message, ran.result ≠ .error (.breach message)

theorem Program.Valid.mono {table table' : SymbolTable} {p : Program} (hkeeps : table.Keeps table')
    (h : p.Valid table) : p.Valid table' := fun s hs => (h s hs).mono hkeeps

theorem Program.valid_parse (file : String) (source : Source) (table : SymbolTable) :
    let parsed := Program.parse file source table
    parsed.program.Valid parsed.table :=
  fun s hs => ((Program.sound_parse file source table).2 s hs).valid

theorem Program.OfSource.valid {table : SymbolTable} {p : Program} (h : p.OfSource table) :
    p.Valid table := by
  induction h with
  | parse file source h => exact (Program.valid_parse file source _).mono h
  | fold _ ih => exact ih.fold

namespace Session

variable {α : Type} {s : Session}

/-- The program's own frame is there, and the functions in the frames are sound. -/
structure Sound (s : Session) : Prop where
  root : 0 < s.frames.size
  machine : Machine.Sound s.table ⟨s.frames, "", []⟩

theorem Sound.grow (h : s.Sound) {table : SymbolTable} (hkeeps : s.table.Keeps table) :
    Sound { s with table } :=
  ⟨h.root, fun f hf e he g hg => (h.machine f hf e he g hg).mono hkeeps (Nat.le_refl _)⟩

theorem sound_start (table : SymbolTable) : (start table).Sound := by
  refine ⟨Nat.one_pos, fun f hf e he => ?_⟩
  simp only [start, List.mem_toArray, List.mem_singleton] at hf
  subst hf
  rw [List.mem_singleton] at he
  subst he
  rintro _ ⟨⟩

/-- A computation in a sound session reaches nothing out of range and leaves a sound session. -/
theorem Sound.perform (h : s.Sound) {setting : Setting} (htable : setting.table = s.table)
    {good : Nat → α → Prop} {p q : Exec α} (hchecks : Checks setting 1 good p q) :
    (s.perform q).Intact (s.perform p) ∧ (s.perform q).session.Sound := by
  obtain ⟨heq, hkeeps⟩ := hchecks ⟨s.frames, "", []⟩ h.root (htable ▸ h.machine)
  unfold Session.perform
  rw [heq]
  cases hrun : q ⟨s.frames, "", []⟩ with
  | ok a m =>
    rw [hrun] at hkeeps
    obtain ⟨hgrows, hsound, _⟩ := hkeeps
    exact ⟨⟨rfl, nofun⟩, Nat.lt_of_lt_of_le h.root hgrows, htable ▸ hsound⟩
  | error e m =>
    rw [hrun] at hkeeps
    obtain ⟨hgrows, hsound, hunbroken⟩ := hkeeps
    refine ⟨⟨rfl, ?_⟩, Nat.lt_of_lt_of_le h.root hgrows, htable ▸ hsound⟩
    rintro message ⟨⟩
    exact hunbroken message rfl

/-- The frame of the program itself is in a sound session. -/
theorem scope_lt : ∀ frame ∈ scope, frame < 1 := by simp [scope]

theorem checks_execAll {setting : Setting} {n : Nat} (hn : 1 ≤ n) {last : Value}
    (hlast : last.Sound setting.table n) {ss : List Stmt} (hss : ∀ s ∈ ss, s.Valid setting.table) :
    Checks setting n (Value.Sound setting.table) (checkedExecAll setting last ss)
      (execAll setting last ss) := by
  have hinvoke := Closure.checks_invoke setting
  induction ss generalizing n last with
  | nil => exact .pure fun _ => hlast.mono
  | cons s rest ih =>
    obtain ⟨hs, hrest⟩ := List.forall_mem_cons.1 hss
    cases s with
    | expr e loc =>
      refine ((Checks.eval hinvoke scope_lt e hs.2.1).mono hn).bind fun n' v hn' hv => ?_
      exact ih (Nat.le_trans hn hn') hv hrest
    | function | var | block | conditional | loop | returning =>
      refine ((Checks.exec hinvoke scope_lt _ hs).mono hn).bind fun n' flow hn' hflow => ?_
      cases flow with
      | next => exact ih (Nat.le_trans hn hn') (hlast.mono hn') hrest
      | returned v => exact .pure fun n'' hn'' => (hflow v rfl).mono hn''

/-- A valid program runs in a fresh session without a breach. -/
theorem intact_run (s : Session) (options : RunOptions) {p : Program} (hp : p.Valid s.table) :
    (s.run options p).Intact (s.checkedRun options p) ∧ (s.run options p).session.Sound := by
  let setting := (start s.table).setting options
  have hvalid : p.Valid setting.table := hp.mono (s.table.keeps_add "print" .empty)
  have hbody := Checks.execAll (Closure.checks_invoke setting) scope_lt p.body
    (Stmt.allIn_outlines.2 hvalid)
  refine (sound_start s.table).perform rfl (?_ : Checks setting 1 (fun _ (_ : Int64) => True) _ _)
  refine hbody.bind fun n flow _ _ => ?_
  cases flow <;> exact .pure fun _ _ => trivial

/-- A valid program runs in a sound session without a breach. -/
theorem Sound.intact_exec (h : s.Sound) (options : RunOptions) {p : Program}
    (hp : p.Valid s.table) :
    (s.exec options p).Intact (s.checkedExec options p) ∧ (s.exec options p).session.Sound := by
  let setting := s.setting options
  have hvoid : Value.Sound setting.table 1 .void := Value.sound_of_isPlain trivial
  exact h.perform (show setting.table = s.table from rfl)
    (checks_execAll (Nat.le_refl 1) hvoid (show ∀ x ∈ p.body, x.Valid setting.table from hp))

theorem OfSources.sound (h : s.OfSources) : s.Sound := by
  induction h with
  | start table => exact sound_start table
  | grow _ hkeeps ih => exact ih.grow hkeeps
  | run _ hp options ih => exact (intact_run _ options hp.valid).2
  | exec _ hp options ih => exact (ih.intact_exec options hp.valid).2

/-- A further text is read into the session, and what was read is run. -/
theorem OfSources.read (h : s.OfSources) (file : String) (source : Source) (options : RunOptions) :
    let parsed := Program.parse file source s.table
    OfSources { s with table := parsed.table } ∧
      OfSources (Session.exec { s with table := parsed.table } options parsed.program).session := by
  intro parsed
  have hgrown : OfSources { s with table := parsed.table } :=
    h.grow (Program.sound_parse file source s.table).1
  exact ⟨hgrown, hgrown.exec (.parse file source (.refl parsed.table)) options⟩

end Session

/-- Nothing that is done with the program, with its names in the table, asks for a name that is not
there, meets an operator that the language lacks or reaches a frame or an argument out of range. -/
structure Program.Intact (table : SymbolTable) (p : Program) : Prop where
  known : ∀ e ∈ p.entries, ∀ code, e.head ≠ .binary (.unknown code)
  entered : p.breach? table = none
  expressions : ∀ e ∈ p.parts true, Entry.breach? table e.outline.entries = none
  printed : ∀ name : Int → String,
    (∀ id symbol, table.get? id = some symbol → name id = symbol.name) →
    p.format name = p.format table.nameOf ∧
      (∀ e ∈ p.parts true, e.explicit name = e.explicit table.nameOf) ∧
      p.dump name = p.dump table.nameOf ∧ p.dot name = p.dot table.nameOf
  lowered : Wat.Intact (p.toWat table)
  ran : ∀ frames options,
    (Session.run ⟨table, frames⟩ options p).Intact (Session.checkedRun ⟨table, frames⟩ options p)
  executed : ∀ frames, Session.OfSources ⟨table, frames⟩ → ∀ options,
    (Session.exec ⟨table, frames⟩ options p).Intact (Session.checkedExec ⟨table, frames⟩ options p)

theorem Program.OfSource.intact {table : SymbolTable} {p : Program} (h : p.OfSource table) :
    p.Intact table where
  known e he := (h.valid.entries e he).known
  entered := h.valid.breach?_eq_none
  expressions := h.valid.parts_breach?
  printed _ := h.valid.printed_eq
  lowered := h.valid.intact_toWat
  ran _ options := (Session.intact_run _ options h.valid).1
  executed _ hs options := (hs.sound.intact_exec options h.valid).1

/-- What is read of a source text, however much of it cannot be read. Every node that names a symbol
names one of the table, with the name that is spelled where the node stands. Whatever names are
entered later, the program is printed, lowered and run without a breach, folded or not. -/
theorem Program.parse_intact (file : String) (source : Source) (first : SymbolTable) :
    let parsed := Program.parse file source first
    (∀ e ∈ parsed.program.entries, ∀ id ∈ e.head.id?, ∃ symbol,
      parsed.table.get? id = some symbol ∧
      Spelled (TokenStream.ofSource file source).tokens symbol.name e.head e.loc) ∧
    ∀ table, parsed.table.Keeps table →
      parsed.program.Intact table ∧ parsed.program.fold.Intact table := by
  intro parsed
  refine ⟨fun e he => (Program.sound_entries file source first e he).named, fun table hkeeps => ?_⟩
  have hsource : parsed.program.OfSource table := .parse file source hkeeps
  exact ⟨hsource.intact, hsource.fold.intact⟩

/-- A text that cannot be read to its end leaves a function, which the next text calls in a loop. -/
theorem Program.parse_intact_session :
    let source := Source.ofString "int8 x = 1; fn f(int8 n): int8 { n += x; return n; } (1 + ;"
    let source' := Source.ofString "do { x = f(x); } while (x < 5); x;"
    let options : RunOptions := ⟨9, false, none⟩
    let s := Session.start .empty
    let parsed := Program.parse "m" source s.table
    let s₁ := (Session.exec { s with table := parsed.table } options parsed.program).session
    let parsed₁ := Program.parse "m" source' s₁.table
    let s₂ : Session := ⟨parsed₁.table, s₁.frames⟩
    let ran := s₂.exec options parsed₁.program
    parsed.report.length = 1 ∧ parsed.program.entries.length = 14 ∧ parsed₁.report = [] ∧
      ran.result.toOption.map Value.render = some "8" ∧
      parsed₁.program.Intact parsed₁.table ∧
      ran.Intact (s₂.checkedExec options parsed₁.program) := by
  intro source source' options s parsed s₁ parsed₁ s₂ ran
  have hleft : s₁.OfSources := ((Session.OfSources.start .empty).read "m" source options).2
  have hsources : s₂.OfSources := (hleft.read "m" source' options).1
  have hprogram : parsed₁.program.Intact parsed₁.table :=
    ((Program.parse_intact "m" source' s₁.table).2 parsed₁.table (.refl parsed₁.table)).1
  obtain ⟨hreport, hentries, hclean, hresult⟩ : parsed.report.length = 1 ∧
      parsed.program.entries.length = 14 ∧ parsed₁.report = [] ∧
      ran.result.toOption.map Value.render = some "8" := by
    decide +kernel
  exact ⟨hreport, hentries, hclean, hresult, hprogram, hprogram.executed s₁.frames hsources options⟩

end Ember
