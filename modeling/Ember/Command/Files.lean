import Ember.Database
import Ember.Database.StoreError

namespace Ember

/-- Why a file cannot be opened. -/
inductive FileError where
  | noEntry | notDirectory | isDirectory | invalid | nameTooLong
  deriving DecidableEq

def FileError.reason : FileError → String
  | noEntry => "no such file or directory"
  | notDirectory => "not a directory"
  | isDirectory => "is a directory"
  | invalid => "invalid argument"
  | nameTooLong => "file name too long"

/-- The message about a file that cannot be used. -/
def FileError.message (e : FileError) (action path : String) : String :=
  action ++ " " ++ path ++ ": " ++ e.reason

/-- What is at a path. -/
inductive Found where
  | file (content : Source)
  | directory

/-- The files that a command works on: what is at a path, making or replacing a file, and
adding a run to a database, which gives the number of the run. -/
structure Files (m : Type → Type) where
  look : String → m (Except FileError Found)
  write : String → Source → m (Except FileError Unit)
  store : String → ExportRun → m (Except StoreError Nat)

namespace Files

variable {m : Type → Type} [Monad m]

/-- Reads a source text. -/
def source (files : Files m) (path : String) : m (Except String Source) := do
  match ← files.look path with
  | .ok (.file content) => return .ok content
  | .ok .directory => return .error (FileError.invalid.message "read" path)
  | .error e => return .error (e.message "open" path)

/-- Reads the bytes of a file. -/
def binary (files : Files m) (path : String) : m (Except String Source) := do
  match ← files.look path with
  | .ok (.file content) => return .ok content
  | .ok .directory => return .error (FileError.isDirectory.message "read" path)
  | .error e => return .error (e.message "open" path)

/-- Makes or replaces a file. -/
def create (files : Files m) (path : String) (content : Source) : m (Except String Unit) := do
  match ← files.write path content with
  | .ok () => return .ok ()
  | .error e => return .error (e.message "open" path)

end Files

end Ember
