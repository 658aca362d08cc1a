import Ember.Command
import Ember.Command.Directory.Store
import Ember.Proofs.Command.Place

namespace Ember

/-- The code of a command that is refused for its options, for the errors in its input, or because
the input cannot be read. A program can end with such a code too. -/
def Outcome.isRefusal (o : Outcome) : Prop :=
  o.code = usageCode ∨ o.code = dataCode ∨ o.code = noInputCode

namespace Command

open Outcome

variable {σ α β : Type}

/-- The state stays as it is. -/
def Quiet (p : StateM σ α) : Prop := ∀ s, (p.run s).2 = s

/-- The state stays as it is whenever the command is refused. -/
def Sparing (p : StateM σ Outcome) : Prop := ∀ s, (p.run s).1.isRefusal → (p.run s).2 = s

/-- The command is never refused. -/
def Accepting (p : StateM σ Outcome) : Prop := ∀ s, ¬ (p.run s).1.isRefusal

namespace Quiet

theorem pure (a : α) : Quiet (Pure.pure a : StateM σ α) := fun _ => rfl

theorem bind {p : StateM σ α} {f : α → StateM σ β} (hp : Quiet p) (hf : ∀ a, Quiet (f a)) :
    Quiet (p >>= f) := by
  intro s
  change ((f (p.run s).1).run (p.run s).2).2 = s
  rw [hf, hp]

theorem source {files : Files (StateM σ)} (h : ∀ path, Quiet (files.look path)) (path : String) :
    Quiet (files.source path) := by
  refine (h path).bind fun found => ?_
  split <;> exact pure _

theorem binary {files : Files (StateM σ)} (h : ∀ path, Quiet (files.look path)) (path : String) :
    Quiet (files.binary path) := by
  refine (h path).bind fun found => ?_
  split <;> exact pure _

end Quiet

namespace Accepting

theorem pure {o : Outcome} (h : ¬ o.isRefusal) : Accepting (Pure.pure o : StateM σ Outcome) :=
  fun _ => h

theorem bind {p : StateM σ α} {f : α → StateM σ Outcome} (h : ∀ a, Accepting (f a)) :
    Accepting (p >>= f) :=
  fun s => h (p.run s).1 (p.run s).2

theorem not_isRefusal_done (out : String) : ¬ (done out).isRefusal := by
  simp [isRefusal, done, usageCode, dataCode, noInputCode]

theorem not_isRefusal_output (err : String) : ¬ (failed outputCode err).isRefusal := by
  simp [isRefusal, failed, outputCode, usageCode, dataCode, noInputCode]

theorem save (files : Files (StateM σ)) (path : String) (content : Source) {next : StateM σ Outcome}
    (h : Accepting next) : Accepting (save files path content next) := by
  refine bind fun written => ?_
  split
  · exact h
  · exact pure (not_isRefusal_output _)

theorem saveCompiled (tools : Toolchain) (files : Files (StateM σ)) (base wat : String)
    (wasm : List UInt8) : Accepting (saveCompiled tools files base wat wasm) :=
  save files _ _ (save files _ _ (pure (not_isRefusal_done _)))

theorem converse (given : Surroundings) (files : Files (StateM σ)) :
    Accepting (converse given files) :=
  bind fun _ => pure (by simp [isRefusal, usageCode, dataCode, noInputCode])

end Accepting

namespace Sparing

theorem pure (o : Outcome) : Sparing (Pure.pure o : StateM σ Outcome) := fun _ _ => rfl

theorem of_accepting {p : StateM σ Outcome} (h : Accepting p) : Sparing p :=
  fun s hrefusal => absurd hrefusal (h s)

theorem bind {p : StateM σ α} {f : α → StateM σ Outcome} (hp : Quiet p) (hf : ∀ a, Sparing (f a)) :
    Sparing (p >>= f) := by
  intro s hrefusal
  change ((f (p.run s).1).run (p.run s).2).1.isRefusal at hrefusal
  change ((f (p.run s).1).run (p.run s).2).2 = s
  rw [hp s] at hrefusal ⊢
  exact hf _ s hrefusal

variable {files : Files (StateM σ)}

/-- The input is read and parsed before a command goes on. -/
theorem load (printer : Printer) (h : ∀ path, Quiet (files.look path)) (path : String)
    {next : Source → Parsed → StateM σ Outcome} (hnext : ∀ source p, Sparing (next source p)) :
    Sparing (load printer files path next) := by
  refine bind (Quiet.source h path) fun source => ?_
  split
  · exact pure _
  · split
    · exact pure _
    · exact hnext _ _

/-- A command that writes has got past everything that it can be refused for. -/
theorem perform (tools : Toolchain) (given : Surroundings) (h : ∀ path, Quiet (files.look path))
    (command : Command) : Sparing (command.perform tools given files) := by
  cases command with
  | help => exact pure _
  | tokens path =>
    refine bind (Quiet.source h path) fun source => ?_
    split <;> exact pure _
  | tree fold path => exact load _ h path fun _ _ => pure _
  | format write path =>
    refine load _ h path fun source p => ?_
    dsimp only
    split
    · exact pure _
    split
    · exact pure _
    · exact of_accepting (.save _ _ _ (.pure (Accepting.not_isRefusal_done _)))
  | run fold traced wasm path => exact load _ h path fun _ _ => pure _
  | build out path =>
    refine load _ h path fun _ p => ?_
    split
    · exact of_accepting (.saveCompiled _ _ _ _ _)
    · exact pure _
  | launch path =>
    refine bind (Quiet.binary h path) fun content => ?_
    split <;> exact pure _
  | graph out path =>
    refine load _ h path fun _ p => ?_
    dsimp only
    split
    · exact pure _
    · exact of_accepting (.save _ _ _ (.pure (Accepting.not_isRefusal_done _)))
  | store db path =>
    refine load _ h path fun source _ => of_accepting (.bind fun stored => ?_)
    split
    · exact .pure (Accepting.not_isRefusal_done _)
    · exact .pure (Accepting.not_isRefusal_output _)
  | repl => exact of_accepting (.converse given files)

theorem executeWith (tools : Toolchain) (given : Surroundings)
    (h : ∀ path, Quiet (files.look path)) (args : List String) :
    Sparing (executeWith tools given files args) := by
  unfold Command.executeWith
  split
  · exact perform tools given h _
  · exact pure _

end Sparing

/-- The canonical form of the program that a source text holds. -/
def canonical (path : String) (source : Source) : Source :=
  let p := Program.parse path source .empty
  Source.ofString (p.program.format p.table.nameOf)

theorem canonical_nil (path : String) : canonical path [] = [] := rfl

/-- Of a directory only the file at a path is written anew: it held an accepted program, and holds
its canonical form. -/
structure Reformatted (path : String) (before after : Directory) (place : List String)
    (source : Source) : Prop where
  found : before.resolve path = .ok place
  read : before.look path = .ok (.file source)
  accepted : (Program.parse path source .empty).report = []
  written : after.look path = .ok (.file (canonical path source))
  resolves : ∀ path', after.resolve path' = before.resolve path'
  others : ∀ place' ≠ place, after.node? place' = before.node? place'

section

variable {d : Directory} {path : String} {source : Source}
  {store : String → ExportRun → StateM Directory (Except StoreError Nat)}

/-- What is read of a directory are the files that are found in it. -/
theorem exists_source_run (d : Directory) (path : String) :
    ∃ read, ((Directory.filesWith store).source path).run d = (read, d) ∧
      ∀ source, read = .ok source → d.look path = .ok (.file source) := by
  have hlook : ((Directory.filesWith store).look path).run d = (d.look path, d) := rfl
  unfold Files.source
  rw [StateT.run_bind, hlook]
  cases hfound : d.look path with
  | error e => exact ⟨_, rfl, fun _ h => by cases h⟩
  | ok found =>
    cases found with
    | file content =>
      refine ⟨_, rfl, fun source h => ?_⟩
      cases h
      rfl
    | directory => exact ⟨_, rfl, fun _ h => by cases h⟩

theorem load_of_error (printer : Printer) {message : String}
    (hread : ((Directory.filesWith store).source path).run d = (.error message, d))
    (next : Source → Parsed → StateM Directory Outcome) :
    (load printer (Directory.filesWith store) path next).run d =
      (failed noInputCode (message ++ "\n"), d) := by
  unfold load
  rw [StateT.run_bind, hread]
  rfl

theorem load_of_ok (printer : Printer)
    (hread : ((Directory.filesWith store).source path).run d = (.ok source, d))
    (next : Source → Parsed → StateM Directory Outcome) :
    (load printer (Directory.filesWith store) path next).run d =
      match parsed printer path source with
      | .error outcome => (outcome, d)
      | .ok p => (next source p).run d := by
  unfold load
  rw [StateT.run_bind, hread]
  change (match parsed printer path source with
    | .error outcome => Pure.pure outcome
    | .ok p => next source p : StateM Directory Outcome).run d = _
  cases parsed printer path source <;> rfl

/-- A file that can be written is written before a command goes on. -/
theorem save_of_write {content : Source} {after : Directory}
    (hwrite : d.write path (.text content) = .ok after) (next : StateM Directory Outcome) :
    (save (Directory.filesWith store) path content next).run d = next.run after := by
  have hset : ((Directory.filesWith store).write path content).run d = (.ok (), after) := by
    unfold Directory.filesWith
    dsimp only
    rw [StateT.run_bind, StateT.run_get]
    dsimp only [bind, pure]
    rw [hwrite]
    rfl
  have hwritten : ((Directory.filesWith store).create path content).run d = (.ok (), after) := by
    unfold Files.create
    rw [StateT.run_bind, hset]
    rfl
  unfold save
  rw [StateT.run_bind, hwritten]
  rfl

/-- What formatting in place comes to when the program is accepted. -/
theorem format_run (tools : Toolchain) (given : Surroundings)
    (hread : ((Directory.filesWith store).source path).run d = (.ok source, d))
    (hclean : (Program.parse path source .empty).report = []) :
    ((Command.format true path).perform tools given (Directory.filesWith store)).run d =
      if canonical path source = source then (done "", d)
      else (save (Directory.filesWith store) path (canonical path source)
        (return done "")).run d := by
  have hparsed : parsed given.printer path source = .ok (Program.parse path source .empty) := by
    unfold parsed
    dsimp only
    rw [hclean]
    rfl
  unfold perform canonical
  rw [load_of_ok given.printer hread, hparsed]
  dsimp only
  rw [if_neg (by decide)]
  split <;> rfl

/-- The canonical form replaces what a file holds. -/
theorem reformatted_write (hlook : d.look path = .ok (.file source))
    (hclean : (Program.parse path source .empty).report = [])
    (hsame : canonical path source ≠ source) :
    ∃ after place, d.write path (.text (canonical path source)) = .ok after ∧
      Reformatted path d after place source := by
  obtain ⟨place, content, hplace, hnode, hcontent⟩ := Directory.exists_place_of_look hlook
  have hnull : place ≠ Directory.nullDevice := by
    rintro rfl
    cases hnode
    exact hsame (hcontent ▸ canonical_nil path)
  have hkinds := Directory.sameKinds_put hnode hnull (.text (canonical path source))
  refine ⟨_, place, Directory.write_of_file hplace hnode _, hplace, hlook, hclean, ?_,
    hkinds.resolve_eq, fun _ => Directory.node?_put_of_ne⟩
  exact Directory.look_of_resolve ((hkinds.resolve_eq path).trans hplace)
    (Directory.node?_put_self hnode hnull)

/-- A file that is in its canonical form stays as it is. -/
theorem reformatted_refl (hlook : d.look path = .ok (.file source))
    (hclean : (Program.parse path source .empty).report = [])
    (hsame : canonical path source = source) :
    ∃ place, Reformatted path d d place source := by
  obtain ⟨place, content, hplace, -⟩ := Directory.exists_place_of_look hlook
  exact ⟨place, hplace, hlook, hclean, by rw [hsame, hlook], fun _ => rfl, fun _ _ => rfl⟩

/-- Formatting in place that ends well leaves every other file as it was. -/
theorem reformatted_format (tools : Toolchain) (given : Surroundings)
    (hcode :
      (((Command.format true path).perform tools given (Directory.filesWith store)).run d).1.code =
        0) :
    ∃ place source, Reformatted path d
      (((Command.format true path).perform tools given (Directory.filesWith store)).run d).2
        place source := by
  obtain ⟨read, hread, hfound⟩ := exists_source_run d path
  cases read with
  | error message =>
    unfold perform at hcode
    rw [load_of_error given.printer hread] at hcode
    cases hcode
  | ok source =>
    have hlook := hfound source rfl
    by_cases hclean : (Program.parse path source .empty).report = []
    · rw [format_run tools given hread hclean]
      by_cases hsame : canonical path source = source
      · obtain ⟨place, hplace⟩ := reformatted_refl hlook hclean hsame
        rw [if_pos hsame]
        exact ⟨place, source, hplace⟩
      · obtain ⟨after, place, hwrite, hafter⟩ := reformatted_write hlook hclean hsame
        rw [if_neg hsame, save_of_write hwrite]
        exact ⟨place, source, hafter⟩
    · have hparsed : ∃ err, parsed given.printer path source = .error (failed dataCode err) := by
        refine ⟨_, if_neg ?_⟩
        simpa using hclean
      obtain ⟨err, hparsed⟩ := hparsed
      unfold perform at hcode
      rw [load_of_ok given.printer hread, hparsed] at hcode
      cases hcode

end

/-- A command line that is refused leaves the directory as it was, and formatting a file in place
that ends well leaves all of it but the file. -/
theorem frame_executeWith (tools : Toolchain) (given : Surroundings)
    (store : String → ExportRun → StateM Directory (Except StoreError Nat)) (args : List String)
    (d : Directory) :
    let ran := (executeWith tools given (Directory.filesWith store) args).run d
    (ran.1.code = 2 ∨ ran.1.code = 64 ∨ ran.1.code = 66 → ran.2 = d) ∧
      ∀ path, parse args = .ok (.format true path) → ran.1.code = 0 →
        ∃ place source, Reformatted path d ran.2 place source := by
  intro ran
  refine ⟨Sparing.executeWith tools given (fun _ _ => rfl) args d, fun path hargs hcode => ?_⟩
  have hran : ran =
      ((Command.format true path).perform tools given (Directory.filesWith store)).run d := by
    simp only [ran, executeWith, hargs]
  rw [hran] at hcode ⊢
  exact reformatted_format tools given hcode

/-- One file is formatted in place, and the other one, which is no program, is refused. -/
theorem frame_executeWith_format :
    let d := Directory.ofFiles [("a.ember", Source.ofString "x=1;"), ("b.ember", Source.ofString "y")]
    let run (path : String) :=
      (executeWith noTools ⟨false, [], []⟩ Directory.files ["format", "-write", path]).run d
    (parse ["format", "-write", "a.ember"] = .ok (.format true "a.ember") ∧
      (run "a.ember").1.code = 0 ∧
      ∃ place source, Reformatted "a.ember" d (run "a.ember").2 place source) ∧
      (run "b.ember").1.code = 64 ∧ (run "b.ember").2 = d := by
  dsimp only
  have hargs : parse ["format", "-write", "a.ember"] = .ok (.format true "a.ember") := by
    decide +kernel
  have hframe (path : String) := frame_executeWith noTools ⟨false, [], []⟩
    (fun address run => (Directory.store address run).run) ["format", "-write", path]
    (Directory.ofFiles [("a.ember", Source.ofString "x=1;"), ("b.ember", Source.ofString "y")])
  refine ⟨⟨hargs, ?_, (hframe "a.ember").2 _ hargs ?_⟩, ?_, (hframe "b.ember").1 (.inr (.inl ?_))⟩ <;>
    decide +kernel

end Command

end Ember
