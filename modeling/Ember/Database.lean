import Ember.Parser.Program
import Ember.Text.Quoted
import Ember.Tree.Outline

namespace Ember

/-- What is stored of one token. -/
structure TokenRow where
  seq : Nat
  kind : String
  text : String
  row : Int
  col : Int
  deriving DecidableEq

/-- What is stored of one symbol. -/
structure SymbolRow where
  id : Nat
  name : String
  type : String
  deriving DecidableEq

/-- What is stored of one node. The root has no parent, and a node without a place no row and
column. -/
structure NodeRow where
  id : Nat
  parent : Option Int
  depth : Nat
  kind : String
  label : String
  row : Option Int
  col : Option Int
  deriving DecidableEq

/-- What one export stores. -/
structure ExportRun where
  file : String
  tokens : List TokenRow
  symbols : List SymbolRow
  nodes : List NodeRow
  deriving DecidableEq

/-- A database of exports, which are numbered from 1. -/
structure Database where
  runs : List ExportRun
  deriving DecidableEq

def NodeRow.ofEntry (name : Int → String) (e : Entry) : NodeRow :=
  { id := e.id
    parent := if e.parent < 0 then none else some e.parent
    depth := e.depth
    kind := e.head.kind.name
    label := e.head.label name
    row := if e.loc.isUnset then none else some e.loc.row
    col := if e.loc.isUnset then none else some e.loc.column }

/-- The rows for a program with its tokens and names. A program with errors has no nodes. -/
def ExportRun.of (file : String) (tokens : List Token) (table : SymbolTable)
    (program : Option Program) : ExportRun :=
  { file
    tokens := tokens.zipIdx.map fun (t, i) =>
      ⟨i, t.lexeme.kindName, t.lexeme.text, t.loc.row, t.loc.column⟩
    symbols := table.entries.toList.zipIdx.map fun (s, i) => ⟨i, s.name, s.type.name⟩
    nodes := match program with
      | none => []
      | some p => p.entries.map (NodeRow.ofEntry table.nameOf) }

namespace Database

def empty : Database := ⟨[]⟩

/-- Stores a run and gives its number. -/
def add (db : Database) (run : ExportRun) : Nat × Database :=
  (db.runs.length + 1, ⟨db.runs ++ [run]⟩)

/-- The run with the given number. -/
def run? (db : Database) (id : Nat) : Option ExportRun :=
  if id = 0 then none else db.runs[id - 1]?

/-- The number of rows that a table holds for a run. -/
def count (db : Database) (table : String) (id : Nat) : Except String Nat :=
  let rows (f : ExportRun → Nat) : Nat := ((db.run? id).map f).getD 0
  match table with
  | "tokens" => .ok (rows (·.tokens.length))
  | "symbols" => .ok (rows (·.symbols.length))
  | "nodes" => .ok (rows (·.nodes.length))
  | _ => .error ("unknown table " ++ Text.quote table)

end Database

namespace ExportRun

/-- A text between single quotes, of which those inside it are written twice. -/
def sqlText (text : String) : String :=
  "'" ++ String.join (text.toList.map fun c => if c = '\'' then "''" else c.toString) ++ "'"

/-- A number that may be missing. -/
def sqlNumber : Option Int → String
  | none => "NULL"
  | some n => toString n

/-- The statement that adds a row to a table. -/
def insertion (table : String) (values : List String) : String :=
  "INSERT INTO " ++ table ++ " VALUES (" ++ ", ".intercalate values ++ ");\n"

/-- The statements that add a run with the given number to a database. -/
def script (run : ExportRun) (id : Nat) : String :=
  insertion "runs" [toString id, sqlText run.file] ++
    String.join (run.tokens.map fun t =>
      insertion "tokens" [toString id, toString t.seq, sqlText t.kind, sqlText t.text,
        toString t.row, toString t.col]) ++
    String.join (run.symbols.map fun s =>
      insertion "symbols" [toString id, toString s.id, sqlText s.name, sqlText s.type]) ++
    String.join (run.nodes.map fun n =>
      insertion "nodes" [toString id, toString n.id, sqlNumber n.parent, toString n.depth,
        sqlText n.kind, sqlText n.label, sqlNumber n.row, sqlNumber n.col])

end ExportRun

/-- Exports a source text. The tokens and names are stored also when it has errors. -/
def Program.exportSource (file : String) (source : Source) : ExportRun :=
  let stream := TokenStream.ofSource file source
  let parsed := stream.parse file .empty
  ExportRun.of file stream.allTokens parsed.table
    (if parsed.report.isEmpty then some parsed.program else none)

end Ember
