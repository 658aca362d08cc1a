import Ember.Command.Directory
import Ember.Database.Address

namespace Ember.Directory

/-- The bytes of the path of the working directory. -/
def homeWidth : Nat := 24

/-- The bytes of names with a slash before each. -/
def widthBelow (names : List String) : Nat :=
  names.foldr (fun name n => 1 + name.utf8ByteSize + n) 0

/-- The bytes of a path in full. -/
def width : List String → Nat
  | "/" :: names => widthBelow names
  | names => homeWidth + widthBelow names

/-- The most bytes the path of a database can have, with what is added to it for the files beside
it. -/
def maxDatabasePath : Nat := 512

/-- A name can be looked for at a place: no file is on the way there, and it is not too long for
the directory that is there. -/
def canLook (d : Directory) (place : List String) (name : String) : Bool :=
  d.nodes.all (fun (path, node) => node = .directory || !path.isPrefixOf place) &&
    (d.node? place != some .directory || name.utf8ByteSize ≤ maxName) &&
    width place + name.utf8ByteSize + 1 < maxDatabasePath

/-- Follows the names of a database's path from a place. The dots in it are taken away first, so
that what comes before `..` need not exist, but each name is looked for on the way. -/
def simplify (d : Directory) (place : List String) : List String → Option (List String)
  | [] => some place
  | name :: rest =>
    if name = "" ∨ name = "." then simplify d place rest
    else if name = ".." then simplify d (parent place) rest
    else if d.canLook place name then simplify d (place ++ [name]) rest
    else none

/-- The place of a database. -/
def databasePlace (d : Directory) (path : String) : Option (List String) := do
  let place ← d.simplify (if path.startsWith "/" then ["/"] else []) (Path.names path)
  guard (place ≠ ["/"] ∧ width place + "-journal".utf8ByteSize ≤ maxDatabasePath)
  return place

/-- What is beside a place, under its name with an ending. -/
def beside? (d : Directory) (place : List String) (ending : String) : Option DirectoryNode :=
  d.node? (place.dropLast ++ (place.getLast?.map (· ++ ending)).toList)

/-- The work on a database. What was done to the directory stays when it fails. -/
abbrev Storing := ExceptT StoreError (StateM Directory)

/-- Opens the file of a database, which may have to be made, and gives its place. -/
def openDatabase (address : Address) : Storing (List String) := do
  let d ← get
  match d.databasePlace address.path with
  | none => throw .cannotOpen
  | some place =>
    match d.node? place with
    | some .directory => throw (if address.mode = .readOnly then .cannotRead else .cannotOpen)
    | some (.file _) => return place
    | none =>
      if address.mode = .create ∧ d.node? (parent place) = some .directory then
        set (d.put place (.file (.text [])))
        return place
      else throw .cannotOpen

/-- What the file at a place is to a database. -/
def image (d : Directory) (place : List String) : Except StoreError Image :=
  match d.node? place with
  | some (.file (.text source)) => Image.ofBytes (Source.bytes source)
  | some (.file (.database _)) => .ok (.stored true true)
  | _ => .ok .blank

/-- The file at a place has no content that counts. -/
def isBlank (d : Directory) (place : List String) : Bool :=
  d.image place matches .ok .blank

/-- Looks at the files beside a database before it is read: a journal to be played back, and a
log. Directories in their places are in the way. -/
def checkBeside (d : Directory) (place : List String) : Except StoreError Unit :=
  if d.beside? place "-journal" = some .directory ∧ !d.isBlank place then
    .error .unreadableJournal
  else if d.beside? place "-wal" = some .directory then
    .error (if d.isBlank place then .undeletableLog else .unreadableLog)
  else .ok ()

/-- A journal can be made beside a database. -/
def canKeepJournal (d : Directory) (place : List String) : Bool :=
  d.beside? place "-journal" != some .directory &&
    (place.getLast?.all fun name => (name ++ "-journal").utf8ByteSize ≤ maxName)

/-- The database at a place, to which runs can be added. A file that holds nothing is a new
one, and one made elsewhere has no runs. -/
def database (d : Directory) (address : Address) (place : List String) :
    Except StoreError Database := do
  if !address.immutable then d.checkBeside place
  let image ← d.image place
  if address.isReadOnly || image.isReadOnly then throw .readOnly
  else if !d.canKeepJournal place then throw .noJournal
  else if image.isDamaged then throw .malformed
  else if place = nullDevice then throw .cannotKeep
  else
    match d.node? place with
    | some (.file (.database db)) => return db
    | _ => return .empty

/-- Adds a run to the database at an address, and gives its number. -/
def store (text : String) (run : ExportRun) : Storing Nat := do
  let (address, query) ← Address.parse text
  if address.isVolatile then
    Address.checkSettings query
    if address.isReadOnly then throw .readOnly
    return (Database.empty.add run).1
  else
    let place ← openDatabase address
    Address.checkSettings query
    let (id, db) := (← (← get).database address place).add run
    modify (·.put place (.file (.database db)))
    return id

/-- The files of a directory as a command sees and changes them. -/
def files : Files (StateM Directory) := filesWith fun address run => (store address run).run

end Ember.Directory
