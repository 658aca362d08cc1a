import Ember.Text.Query

namespace Ember

/-- Why a run cannot be stored. -/
inductive StoreError where
  /-- The query of the address cannot be read. -/
  | query (cause : QueryError)
  /-- The query names several file systems. -/
  | conflictingSystems (names : List Source)
  /-- The address has a host, or an option with a value that is not known. -/
  | badAddress
  /-- The address asks for more rights than an earlier option of it leaves. -/
  | forbiddenMode
  /-- No file can be opened at the address. -/
  | cannotOpen
  /-- What is opened cannot be read. -/
  | cannotRead
  /-- A setting has a value that is not known. -/
  | unknownSetting (name : String) (value : Source)
  /-- The journal beside the file cannot be read. -/
  | unreadableJournal
  /-- The log beside the file cannot be read. -/
  | unreadableLog
  /-- A log left beside an empty file cannot be removed. -/
  | undeletableLog
  /-- The file is something else. -/
  | notDatabase
  /-- The file is damaged. -/
  | malformed
  /-- The file has a newer format. -/
  | unsupportedFormat
  /-- The database can only be read. -/
  | readOnly
  /-- The journal beside the file cannot be made. -/
  | noJournal
  /-- What is written does not last. -/
  | cannotKeep
  deriving DecidableEq

namespace StoreError

/-- The cause, with the number of its kind. Before a database is open there is no more to say of
a failure than that its text could not be had. -/
def reason : StoreError → String
  | query cause => cause.message
  | conflictingSystems names =>
    "conflicting vfs query parameters: [" ++ " ".intercalate (names.map Source.toString) ++ "]"
  | badAddress => "SQL logic error: out of memory (1)"
  | forbiddenMode => "access permission denied: out of memory (3)"
  | cannotOpen => "unable to open database file: out of memory (14)"
  | cannotRead => "disk I/O error: out of memory (10)"
  | unknownSetting name value => "unknown " ++ name ++ " " ++ Text.quoteSource value
  | unreadableJournal => "disk I/O error (266)"
  | unreadableLog | noJournal => "unable to open database file (14)"
  | undeletableLog => "disk I/O error (2570)"
  | cannotKeep => "disk I/O error (1034)"
  | notDatabase => "file is not a database (26)"
  | malformed => "database disk image is malformed (11)"
  | unsupportedFormat => "SQL logic error: unsupported file format (1)"
  | readOnly => "attempt to write a readonly database (8)"

def message (e : StoreError) : String := "db schema error: " ++ e.reason

end StoreError

end Ember
