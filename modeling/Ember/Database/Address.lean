import Ember.Database.StoreError

namespace Ember

open Text (Percent)

/-- What a database is opened for. -/
inductive OpenMode where
  | readOnly | readWrite | create | memory
  deriving DecidableEq

namespace OpenMode

def ofName? : String → Option OpenMode
  | "ro" => some readOnly
  | "rw" => some readWrite
  | "rwc" => some create
  | "memory" => some memory
  | _ => none

/-- Modes that take more rights have a higher rank. -/
def rank : OpenMode → Nat
  | memory => 0
  | readOnly => 1
  | readWrite => 2
  | create => 3

/-- A later option may set the mode `new`. It takes no more rights than `old`, unless that one
used no file. -/
def allows (old new : OpenMode) : Bool := old = memory || new.rank ≤ old.rank

end OpenMode

/-- Where a database is and how it is used. -/
structure Address where
  path : String
  mode : OpenMode
  /-- The file system by name, if one is chosen. -/
  system : Option String
  /-- The file is taken never to change. -/
  immutable : Bool
  deriving DecidableEq

namespace Address

/-- The file systems that can be chosen. -/
def systems : List String := ["unix", "unix-none", "unix-dotfile", "unix-excl", "memdb"]

/-- The database ends with the command: it has no name, or is asked to be in memory. -/
def isTemporary (a : Address) : Bool :=
  a.path = "" || a.path = ":memory:" || a.mode = .memory

/-- The database leaves no file. -/
def isVolatile (a : Address) : Bool := a.isTemporary || a.system = some "memdb"

/-- Nothing can be added to the database. -/
def isReadOnly (a : Address) : Bool :=
  a.mode = .readOnly || (a.immutable && !a.isTemporary)

/-- The text up to the first zero byte, as it is shown. -/
def name (text : List Percent) : String :=
  Source.toString (Percent.toSource (text.takeWhile fun p => p.bytes != [0]))

/-- The options behind the path: names and values. Those without a name are left out. -/
def options (text : List Percent) : List (String × String) :=
  ((text.splitOn (Percent.mark '&')).map fun option =>
    (name (option.takeWhile (· != Percent.mark '=')),
      name (option.dropWhile (· != Percent.mark '=')).tail)).filter (·.1 != "")

/-- A number is true unless its last eight bits are zero or it takes more than 31; of the words
three are true. -/
def isTrue (text : String) : Bool :=
  let digits := text.toList.takeWhile Char.isDigit
  if digits = [] then ["on", "yes", "true"].contains text.toLower
  else
    let n := digits.foldl (fun n c => 10 * n + (c.toNat - '0'.toNat)) 0
    n < 2147483648 && n % 256 != 0

/-- Applies an option of an address. Options with other names have no effect. -/
def withOption (a : Address) : String × String → Except StoreError Address
  | ("vfs", value) => .ok { a with system := some value }
  | ("cache", value) => if value = "shared" ∨ value = "private" then .ok a else .error .badAddress
  | ("mode", value) =>
    match OpenMode.ofName? value with
    | none => .error .badAddress
    | some mode => if a.mode.allows mode then .ok { a with mode } else .error .forbiddenMode
  | _ => .ok a

/-- Skips the host at the beginning of an address. It can only be this one. -/
def skipHost : Source → Except StoreError Source
  | .char '/' :: .char '/' :: rest =>
    let host := rest.takeWhile (· != .char '/')
    if host = [] ∨ host = Source.ofString "localhost" then
      .ok (rest.dropWhile (· != .char '/'))
    else .error .badAddress
  | text => .ok text

/-- Reads what follows `file:`, a path with options behind it, up to a number sign. -/
def ofUri (system : Option String) (text : Source) : Except StoreError Address := do
  let text := (Percent.ofSource (← skipHost text)).takeWhile (· != Percent.mark '#')
  let options := options (text.dropWhile (· != Percent.mark '?')).tail
  let path := name (text.takeWhile (· != Percent.mark '?'))
  let immutable := isTrue ((options.lookup "immutable").getD "")
  options.foldlM withOption ⟨path, .create, system, immutable⟩

/-- The file system that a query chooses. Of several names all must be the same, apart from
empty ones at the beginning. -/
def systemOf (query : Query) : Except StoreError (Option String) :=
  match (query.values "vfs").dropWhile (· == []) with
  | [] => .ok none
  | system :: others =>
    if others.all (· == system) then .ok (some (Source.toString system))
    else .error (.conflictingSystems (query.values "vfs"))

/-- The query behind the first question mark, unless the text begins with it. -/
def queryOf (text : Source) : Except StoreError Query :=
  if text.head? = some (.char '?') then .ok .empty
  else
    match Query.parse (text.dropWhile (· != .char '?')).tail with
    | .ok query => .ok query
    | .error cause => .error (.query cause)

/-- Reads an address with its query. Only behind `file:` the address is more than a path. A zero
byte ends it. -/
def parse (text : String) : Except StoreError (Address × Query) := do
  let text := Source.ofString text
  let query ← queryOf text
  let system ← systemOf query
  let scheme := Source.ofString "file:"
  let given := text.takeWhile (· != .char '\x00')
  let address ←
    if scheme.isPrefixOf text then ofUri system (given.drop scheme.length)
    else
      let path := if given.head? = some (.char '?') then given
        else given.takeWhile (· != .char '?')
      pure ⟨Source.toString path, .create, system, false⟩
  if address.system.all systems.contains then return (address, query)
  else throw .badAddress

/-- The ways in which a transaction can begin. -/
def locks : List String := ["deferred", "immediate", "exclusive"]

/-- The settings of a connection have values that are known: the format of times, and how a
transaction begins, in small or capital letters. -/
def checkSettings (query : Query) : Except StoreError Unit :=
  let time := query.value "_time_format"
  let lock := query.value "_txlock"
  if time ≠ [] ∧ time ≠ Source.ofString "sqlite" then
    .error (.unknownSetting "_time_format" time)
  else if lock ≠ [] ∧ (Source.toString lock).toLower ∉ locks then
    .error (.unknownSetting "_txlock" lock)
  else .ok ()

end Address

end Ember
