import Ember.Command.Files
import Ember.Command.Path
import Ember.Database.Image

namespace Ember

/-- What a file holds. -/
inductive Content where
  | text (source : Source)
  | database (db : Database)
  deriving DecidableEq

/-- The content read as a source text. A database begins with the name of its format. -/
def Content.source : Content → Source
  | text source => source
  | database _ => Source.ofBytes Image.title

/-- What is at a place of a directory. -/
inductive DirectoryNode where
  | directory
  | file (content : Content)
  deriving DecidableEq

/-- The working directory: what is at each path below it. A path is its names from the top; one
that begins with `..` or `/` leads outside. -/
structure Directory where
  nodes : List (List String × DirectoryNode)
  deriving DecidableEq

namespace Directory

def empty : Directory := ⟨[]⟩

/-- Directories that every system has below the root of all. -/
def systemDirectories : List String :=
  ["bin", "dev", "etc", "lib", "proc", "sys", "tmp", "usr", "var"]

/-- The directory itself, the ones above it, the root of all and those of the system are
directories. -/
def isKnownDirectory : List String → Bool
  | ["/"] => true
  | ["/", name] => systemDirectories.contains name
  | path => path.all (· == "..")

/-- What is read from here is empty, and what is written here is lost. -/
def nullDevice : List String := ["/", "dev", "null"]

/-- What is at a path. Of what is outside little is known. -/
def node? (d : Directory) (path : List String) : Option DirectoryNode :=
  if isKnownDirectory path then some .directory
  else if path = nullDevice then some (.file (.text []))
  else (d.nodes.find? (·.1 == path)).map (·.2)

/-- Puts something at a path. -/
def put (d : Directory) (path : List String) (node : DirectoryNode) : Directory :=
  ⟨d.nodes.filter (·.1 != path) ++ [(path, node)]⟩

/-- The directory that holds what is at a path. -/
def parent (path : List String) : List String :=
  if path = ["/"] then path
  else if path.all (· == "..") then ".." :: path
  else path.dropLast

/-- Puts a directory at each beginning of a path, the shortest first. -/
def makeParents (d : Directory) (path : List String) : Directory :=
  (List.range path.length).foldl (fun d n =>
    if (d.node? (path.take n)).isSome then d else d.put (path.take n) .directory) d

/-- The most bytes a name can have. -/
def maxName : Nat := 255

/-- Follows names from a place. What the last one leads to need not exist. -/
def walk (d : Directory) (place : List String) : List String → Except FileError (List String)
  | [] => .ok place
  | name :: rest =>
    match d.node? place with
    | none => .error .noEntry
    | some (.file _) => .error .notDirectory
    | some .directory =>
      if name = "" ∨ name = "." then walk d place rest
      else if name = ".." then walk d (parent place) rest
      else if maxName < name.utf8ByteSize then .error .nameTooLong
      else walk d (place ++ [name]) rest

/-- Where following a path begins. -/
def origin (path : String) : Except FileError (List String) :=
  if path.toList.contains '\x00' then .error .invalid
  else if path = "" then .error .noEntry
  else if path.startsWith "/" then .ok ["/"]
  else .ok []

/-- The place that a path leads to. -/
def resolve (d : Directory) (path : String) : Except FileError (List String) := do
  d.walk (← origin path) (Path.names path)

/-- What is at a path. -/
def look (d : Directory) (path : String) : Except FileError Found := do
  match d.node? (← d.resolve path) with
  | some .directory => return .directory
  | some (.file content) => return .file content.source
  | none => throw .noEntry

/-- Makes or replaces the file at a path. A path that ends in a slash can only name a
directory. -/
def write (d : Directory) (path : String) (content : Content) : Except FileError Directory := do
  let place ← d.walk (← origin path) ((Path.names path).reverse.dropWhile (· == "")).reverse
  if path.endsWith "/" || d.node? place = some .directory then throw .isDirectory
  else return d.put place (.file content)

/-- The files of a directory as a command sees and changes them, given how runs are added to the
databases among them. -/
def filesWith (store : String → ExportRun → StateM Directory (Except StoreError Nat)) :
    Files (StateM Directory) where
  look path := do return (← get).look path
  write path content := do
    match (← get).write path (.text content) with
    | .ok d =>
      set d
      return .ok ()
    | .error e => return .error e
  store := store

/-- A directory with the given files; a name that ends in a slash is an empty directory. -/
def ofFiles (files : List (String × Source)) : Directory :=
  files.foldl (fun d (path, content) =>
    let place := (Path.names path).filter (· != "")
    let d := d.makeParents place
    d.put place (if path.endsWith "/" then .directory else .file (.text content))) .empty

/-- The files below the directory that `before` does not hold as they are. -/
def changes (before after : Directory) : List (String × Content) :=
  after.nodes.filterMap fun (path, node) =>
    match node, path with
    | .file content, first :: _ =>
      if first = ".." ∨ first = "/" ∨ before.node? path = some (.file content) then none
      else some ("/".intercalate path, content)
    | _, _ => none

end Directory

end Ember
