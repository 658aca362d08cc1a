import Ember.Command.Files
import Ember.Command.Flags
import Ember.Command.Path
import Ember.Dot
import Ember.Format.Program
import Ember.Repl.History
import Ember.Wat.Lower

namespace Ember

/-- What WebAssembly gives that is run: what it prints, and the result of its start, or why there is
none. -/
structure Launched where
  output : String
  result : Except String Int64

/-- The tools that other packages bring: what a text of WebAssembly is assembled to, what running it
gives, and how a number of bytes is told. -/
structure Toolchain where
  assemble : String → Except String (List UInt8)
  launch : List UInt8 → Launched
  sizeText : Nat → String

/-- What the command line asks for. -/
inductive Command where
  | help
  | tokens (path : String)
  | tree (fold : Bool) (path : String)
  | format (write : Bool) (path : String)
  | run (fold traced wasm : Bool) (path : String)
  | build (out path : String)
  | launch (path : String)
  | graph (out path : String)
  | store (db path : String)
  | repl
  deriving DecidableEq

/-- How a command ends and what it writes. -/
structure Outcome where
  code : Int
  out : String
  err : String
  deriving DecidableEq

namespace Outcome

def done (out : String) : Outcome := ⟨0, out, ""⟩

def failed (code : Int) (err : String) : Outcome := ⟨code, "", err⟩

/-- The command line is wrong. -/
def usageCode : Int := 2

/-- The source has errors. -/
def dataCode : Int := 64

/-- The input cannot be read. -/
def noInputCode : Int := 66

/-- The program cannot be run to its end. -/
def runtimeCode : Int := 70

/-- The output cannot be written. -/
def outputCode : Int := 1

end Outcome

namespace Command

open Outcome

def usage : String :=
  "usage:\n" ++
    "  ember tokens <file.ember>\n" ++
    "  ember ast [--fold] <file.ember>\n" ++
    "  ember format [--write] <file.ember>\n" ++
    "  ember run [--fold] [--trace] [--wasm] <file.ember>\n" ++
    "  ember build [-o <name>] <file.ember>\n" ++
    "  ember launch <file.wasm>\n" ++
    "  ember graph [-o <out.dot>] <file.ember>\n" ++
    "  ember export -db <out.sqlite> <file.ember>\n" ++
    "  ember repl\n"

def tokensFlags : FlagSet := ⟨"tokens", []⟩

def treeFlags : FlagSet :=
  ⟨"ast", [⟨"fold", true, "fold constant expressions before printing"⟩]⟩

def formatFlags : FlagSet :=
  ⟨"format", [⟨"write", true, "overwrite the file with the formatted source"⟩]⟩

def runFlags : FlagSet :=
  ⟨"run",
    [⟨"fold", true, "fold constant expressions before running"⟩,
      ⟨"trace", true, "log environment and statement activity to stderr"⟩,
      ⟨"wasm", true, "compile to WebAssembly and run it with wasmtime"⟩]⟩

def buildFlags : FlagSet :=
  ⟨"build", [⟨"o", false, "base name of the output files, placed next to the input"⟩]⟩

def launchFlags : FlagSet := ⟨"launch", []⟩

def graphFlags : FlagSet :=
  ⟨"graph", [⟨"o", false, "write the DOT graph to this file instead of stdout"⟩]⟩

def storeFlags : FlagSet := ⟨"export", [⟨"db", false, "SQLite database to write to"⟩]⟩

def replFlags : FlagSet := ⟨"repl", []⟩

/-- Reads options, and ends with the usage of the command if they are wrong. -/
def options (set : FlagSet) (args : List String) : Except Outcome Options :=
  match set.parse [] args with
  | .ok o => .ok o
  | .error .help => .error (failed usageCode set.usage)
  | .error (.bad message) => .error (failed usageCode (message ++ "\n" ++ set.usage))

/-- Reads options and the one input file after them. -/
def input (set : FlagSet) (args : List String) : Except Outcome (Options × String) := do
  let o ← options set args
  match o.rest with
  | [path] => return (o, path)
  | _ => throw (failed usageCode (set.command ++ ": exactly one input file is required\n"))

/-- Reads a command line. -/
def parse : List String → Except Outcome Command
  | [] => throw (failed usageCode usage)
  | "tokens" :: args => do
    let (_, path) ← input tokensFlags args
    return .tokens path
  | "ast" :: args => do
    let (o, path) ← input treeFlags args
    return .tree (o.isOn "fold") path
  | "format" :: args => do
    let (o, path) ← input formatFlags args
    return .format (o.isOn "write") path
  | "run" :: args => do
    let (o, path) ← input runFlags args
    return .run (o.isOn "fold") (o.isOn "trace") (o.isOn "wasm") path
  | "build" :: args => do
    let (o, path) ← input buildFlags args
    return .build (o.value "o") path
  | "launch" :: args => do
    let (_, path) ← input launchFlags args
    return .launch path
  | "graph" :: args => do
    let (o, path) ← input graphFlags args
    return .graph (o.value "o") path
  | "export" :: args => do
    let (o, path) ← input storeFlags args
    if o.value "db" = "" then throw (failed usageCode "export: -db is required\n")
    else return .store (o.value "db") path
  | "repl" :: args => do
    let o ← options replFlags args
    if o.rest.isEmpty then return .repl
    else throw (failed usageCode "repl: no arguments expected\n")
  | "help" :: _ | "-h" :: _ | "--help" :: _ => return .help
  | name :: _ =>
    throw (failed usageCode ("unknown command " ++ Text.quote name ++ "\n" ++ usage))

/-- What a command is given besides its files: whether messages are coloured, the variables of
the environment, and what standard input holds. -/
structure Surroundings where
  color : Bool
  env : List (String × String)
  stdin : List UInt8

def Surroundings.printer (s : Surroundings) : Printer := ⟨s.color⟩

/-- Assembling WebAssembly is left to a tool that may not be there. -/
def assembleMessage : String := "cgo is disabled: assembling WebAssembly needs wasmtime-go"

/-- Running WebAssembly is left to a tool that may not be there. -/
def launchMessage : String := "cgo is disabled: running WebAssembly needs wasmtime-go"

/-- The tools of a build that has none for WebAssembly. -/
def noTools : Toolchain where
  assemble _ := .error assembleMessage
  launch _ := ⟨"", .error launchMessage⟩
  sizeText n := toString n ++ " B"

/-- The tokens of a source text, each with its place. -/
def listTokens (printer : Printer) (path : String) (source : Source) : Outcome :=
  let stream := TokenStream.ofSource path source
  let out := String.join (stream.allTokens.map fun t =>
    toString t.loc.row ++ ":" ++ toString t.loc.column ++ "\t" ++ t.lexeme.spelling ++ "\n")
  if stream.report.isEmpty then done out
  else ⟨dataCode, out, printer.report stream.report.sorted⟩

/-- Parses a source text; one with errors ends the command. -/
def parsed (printer : Printer) (path : String) (source : Source) : Except Outcome Parsed :=
  let p := Program.parse path source .empty
  if p.report.isEmpty then .ok p else .error (failed dataCode (printer.report p.report))

/-- Runs a program. Its result is the exit code. -/
def runProgram (printer : Printer) (fold traced : Bool) (p : Parsed) : Outcome :=
  let program := if fold then p.program.fold else p.program
  let ran := (Session.start p.table).run ⟨RunOptions.defaultBudget, traced, none⟩ program
  let trace := String.join (ran.trace.map fun e => "trace: " ++ e.render ++ "\n")
  match ran.result with
  | .ok code => ⟨code.toInt, ran.output, trace⟩
  | .error h => ⟨runtimeCode, ran.output, trace ++ Repl.haltMessage printer h⟩

/-- Compiles a program to a text of WebAssembly and its bytes. One that cannot be compiled ends the
command. -/
def compiled (tools : Toolchain) (printer : Printer) (p : Parsed) :
    Except Outcome (String × List UInt8) :=
  match p.program.toWat p.table with
  | .ok wat =>
    match tools.assemble wat with
    | .ok wasm => .ok (wat, wasm)
    | .error message => .error (failed runtimeCode (printer.line message))
  | .error (.fault d) => .error (failed runtimeCode (printer.diagnostic d))
  | .error (.breach message) => .error (failed runtimeCode (printer.line message))

/-- Runs WebAssembly. Its result is the exit code. -/
def runWasm (tools : Toolchain) (wasm : List UInt8) : Outcome :=
  let ran := tools.launch wasm
  match ran.result with
  | .ok code => ⟨code.toInt, ran.output, ""⟩
  | .error message => ⟨runtimeCode, ran.output, message ++ "\n"⟩

/-- Compiles a program and runs it. -/
def runCompiled (tools : Toolchain) (printer : Printer) (p : Parsed) : Outcome :=
  match compiled tools printer p with
  | .ok (_, wasm) => runWasm tools wasm
  | .error outcome => outcome

/-- The path of what a source file is compiled to, without an ending: beside the file, under the name
that is asked for or else its own. -/
def outputBase (out path : String) : String :=
  let name := if out = "" then Path.base path else out
  Path.join (Path.directory path) (Path.withoutEnding (Path.base name) (Path.extension name))

section

variable {m : Type → Type} [Monad m]

/-- Goes on with the program in a file. -/
def load (printer : Printer) (files : Files m) (path : String)
    (next : Source → Parsed → m Outcome) : m Outcome := do
  match ← files.source path with
  | .error message => return failed noInputCode (message ++ "\n")
  | .ok source =>
    match parsed printer path source with
    | .error outcome => return outcome
    | .ok p => next source p

/-- Writes a file and goes on, or fails if that is not possible. -/
def save (files : Files m) (path : String) (content : Source) (next : m Outcome) : m Outcome := do
  match ← files.create path content with
  | .ok () => next
  | .error message => return failed outputCode (message ++ "\n")

/-- Writes the text and the bytes of a compiled program. -/
def saveCompiled (tools : Toolchain) (files : Files m) (base wat : String) (wasm : List UInt8) : m Outcome :=
  save files (base ++ ".wat") (Source.ofString wat) <|
    save files (base ++ ".wasm") (Source.ofBytes wasm) <|
      return done ("wrote " ++ base ++ ".wasm (" ++ tools.sizeText wasm.length ++ ")\n")

/-- The file that keeps the history: the one the environment names, else one in the home
directory. Without either there is none. -/
def historyPath (env : List (String × String)) : Option String :=
  match env.lookup "EMBER_HISTORY", env.lookup "HOME" with
  | some "", _ => none
  | some path, _ => some path
  | none, none | none, some "" => none
  | none, some home => some (Path.join home ".ember_history")

/-- The inputs of earlier sessions. A file that cannot be read holds none. -/
def loadHistory (files : Files m) (path : String) : m Repl.History := do
  match ← files.look path with
  | .ok (.file content) => return .ofFile content
  | _ => return []

/-- Keeps the inputs of a session in the history. -/
def saveHistory (files : Files m) (env : List (String × String)) (recorded : List Source) :
    m Unit := do
  match historyPath env with
  | none => return ()
  | some path =>
    let history ← loadHistory files path
    let _ ← files.write path (recorded.foldl .add history).toFile
    return ()

/-- Runs the read loop on standard input. -/
def converse (given : Surroundings) (files : Files m) : m Outcome := do
  let t := Repl.start.run given.printer (Repl.inputsOf given.stdin)
  saveHistory files given.env t.recorded
  return ⟨0, t.out, t.err⟩

/-- Does what a command asks for. -/
def perform (tools : Toolchain) (given : Surroundings) (files : Files m) : Command → m Outcome
  | .help => return done usage
  | .tokens path => do
    match ← files.source path with
    | .ok source => return listTokens given.printer path source
    | .error message => return failed noInputCode (message ++ "\n")
  | .tree fold path =>
    load given.printer files path fun _ p =>
      return done ((if fold then p.program.fold else p.program).dump p.table.nameOf)
  | .format write path =>
    load given.printer files path fun source p =>
      let text := p.program.format p.table.nameOf
      if !write then return done text
      else if Source.ofString text = source then return done ""
      else save files path (Source.ofString text) (return done "")
  | .run fold traced wasm path =>
    load given.printer files path fun _ p =>
      return if wasm then runCompiled tools given.printer p
        else runProgram given.printer fold traced p
  | .build out path =>
    load given.printer files path fun _ p =>
      match compiled tools given.printer p with
      | .ok (wat, wasm) => saveCompiled tools files (outputBase out path) wat wasm
      | .error outcome => return outcome
  | .launch path => do
    match ← files.binary path with
    | .ok content => return runWasm tools (Source.bytes content)
    | .error message => return failed noInputCode (message ++ "\n")
  | .graph out path =>
    load given.printer files path fun _ p =>
      let text := p.program.dot p.table.nameOf
      if out = "" then return done text
      else save files out (Source.ofString text) (return done "")
  | .store db path =>
    load given.printer files path fun source _ => do
      match ← files.store db (Program.exportSource path source) with
      | .ok id => return done ("exported " ++ path ++ " as run " ++ toString id ++ "\n")
      | .error e => return failed outputCode (e.message ++ "\n")
  | .repl => converse given files

/-- Runs a command line with the given tools. -/
def executeWith (tools : Toolchain) (given : Surroundings) (files : Files m) (args : List String) :
    m Outcome :=
  match parse args with
  | .ok command => command.perform tools given files
  | .error outcome => return outcome

/-- Runs a command line. -/
def execute (given : Surroundings) (files : Files m) (args : List String) : m Outcome :=
  executeWith noTools given files args

end

end Command

end Ember
