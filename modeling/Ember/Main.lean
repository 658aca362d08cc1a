import Ember.Command
import Ember.Database.Address

namespace Ember.Main

/-- Why the system refuses a file. -/
def fileError : IO.Error → FileError
  | .noFileOrDirectory _ _ _ => .noEntry
  | .inappropriateType _ 21 _ => .isDirectory
  | .inappropriateType _ _ _ => .notDirectory
  | _ => .invalid

/-- What the system has at a path. -/
def look (path : String) : IO (Except FileError Found) := do
  try
    return .ok (.file (Source.ofBytes (← IO.FS.readBinFile path).toList))
  catch e =>
    match fileError e with
    | .isDirectory => return .ok .directory
    | e => return .error e

def write (path : String) (content : Source) : IO (Except FileError Unit) := do
  try
    IO.FS.writeBinFile path ⟨(Source.bytes content).toArray⟩
    return .ok ()
  catch e => return .error (fileError e)

/-- The first line of a file that keeps a database as a script. -/
def scriptHeader : String := "-- ember runs\n"

/-- The number of runs that a script adds. -/
def scriptRuns (script : String) : Nat :=
  ((script.splitOn "\n").filter (·.startsWith "INSERT INTO runs ")).length

/-- Adds a run to the database in a file. -/
def storeAt (path : String) (run : ExportRun) : IO (Except StoreError Nat) := do
  let (script, found) ← match ← look path with
    | .ok (.file []) | .error .noEntry => pure (scriptHeader, true)
    | .ok (.file content) =>
      let script := Source.toString content
      pure (script, script.startsWith scriptHeader)
    | _ => return .error .cannotOpen
  if !found then return .error .notDatabase
  let id := scriptRuns script + 1
  match ← write path (Source.ofString (script ++ run.script id)) with
  | .ok () => return .ok id
  | .error _ => return .error .cannotOpen

/-- A database is kept as the script of statements that fills it. -/
def store (text : String) (run : ExportRun) : IO (Except StoreError Nat) := do
  match Address.parse text with
  | .error e => return .error e
  | .ok (address, query) =>
    match Address.checkSettings query with
    | .error e => return .error e
    | .ok () =>
      if address.isReadOnly then return .error .readOnly
      else if address.isVolatile then return .ok (Database.empty.add run).1
      else storeAt address.path run

/-- The files of the system. -/
def files : Files IO := ⟨look, write, store⟩

/-- What a prompt gives. -/
def ask (prompt : String) : IO Repl.Input := do
  let stdin ← IO.getStdin
  if ← stdin.isTty then
    IO.print prompt
    (← IO.getStdout).flush
  let line ← stdin.getLine
  if line.isEmpty then return .endOfInput
  else return .line (Source.ofString (line.dropEndWhile fun c => c == '\n' || c == '\r').toString)

/-- The read loop, which gives the inputs for the history. -/
partial def converse (printer : Printer) (r : Repl) (recorded : List Source) :
    IO (List Source) := do
  let (r, reaction) := r.step printer (← ask r.prompt)
  IO.print reaction.out
  IO.eprint reaction.err
  let recorded := recorded ++ reaction.recorded.toList
  if reaction.finished then return recorded else converse printer r recorded

/-- The variables of the environment that commands use. -/
def environment : IO (List (String × String)) := do
  ["EMBER_HISTORY", "HOME"].filterMapM fun name => do
    return (← IO.getEnv name).map fun value => (name, value)

/-- Messages are coloured on a terminal, unless the environment asks for none. -/
def isColored : IO Bool := do
  if ((← IO.getEnv "NO_COLOR").getD "").isEmpty then (← IO.getStderr).isTty else return false

end Ember.Main

open Ember in
/-- Runs a command line; the system keeps the last eight bits of its code. -/
def main (args : List String) : IO UInt32 := do
  let given : Command.Surroundings := ⟨← Main.isColored, ← Main.environment, []⟩
  match Command.parse args with
  | .ok .repl =>
    let recorded ← Main.converse given.printer Repl.start []
    Command.saveHistory Main.files given.env recorded
    return 0
  | _ =>
    let outcome ← Command.execute given Main.files args
    IO.print outcome.out
    IO.eprint outcome.err
    return UInt32.ofNat (outcome.code % 256).toNat
