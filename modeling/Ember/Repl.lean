import Ember.Parser.Program
import Ember.Run.Session

namespace Ember

/-- What a prompt gives: a line, an interrupt, the end of the input, or another failure. -/
inductive Repl.Input where
  | line (text : Source)
  | abort
  | endOfInput
  | failure

/-- What the loop does in answer to an input: what it writes, the input it keeps in the
history, and whether it ends. -/
structure Repl.Reaction where
  out : String
  err : String
  recorded : Option Source
  finished : Bool

/-- A read loop: a session and the lines of an input that is not complete yet. -/
structure Repl where
  session : Session
  pending : Source

namespace Repl

def start : Repl := ⟨Session.start .empty, []⟩

/-- The file name in the places of diagnostics. -/
def file : String := "repl"

def newline : Glyph := .char '\n'

/-- The prompt that asks for the next line. -/
def prompt (r : Repl) : String := if r.pending.isEmpty then "ember> " else "...... "

def nothing : Reaction := ⟨"", "", none, false⟩

/-- The text without the blanks around it. -/
def trim (text : Source) : String :=
  let rest := text.dropWhile fun g => Text.isBlank g.toChar
  Source.toString (rest.reverse.dropWhile fun g => Text.isBlank g.toChar).reverse

/-- An input as one line. -/
def oneLine (text : Source) : Source :=
  text.map fun g => if g = newline then .char ' ' else g

/-- The message about a run that stopped. -/
def haltMessage (printer : Printer) : Halt → String
  | .fault d => printer.diagnostic d
  | h => printer.line h.message

/-- Runs a complete input in the session and shows its value unless it is void. -/
def eval (printer : Printer) (s : Session) (source : Source) : Session × Reaction :=
  let parsed := Program.parse file source s.table
  let s : Session := { s with table := parsed.table }
  if parsed.report.isEmpty then
    let ran := s.exec ⟨RunOptions.defaultBudget, false, none⟩ parsed.program
    match ran.result with
    | .error h => (ran.session, ⟨ran.output, haltMessage printer h, none, false⟩)
    | .ok .void => (ran.session, ⟨ran.output, "", none, false⟩)
    | .ok value => (ran.session, ⟨ran.output ++ value.render ++ "\n", "", none, false⟩)
  else (s, ⟨"", printer.report parsed.report, none, false⟩)

/-- Takes an input that no line is to be added to. -/
def submit (printer : Printer) (r : Repl) (source : Source) : Repl × Reaction :=
  match trim source with
  | "" => ({ r with pending := [] }, nothing)
  | ":quit" | ":q" => ({ r with pending := [] }, { nothing with finished := true })
  | _ =>
    let (s, reaction) := eval printer r.session source
    (⟨s, []⟩, { reaction with recorded := some (oneLine source) })

/-- The text is a program that ends too early. -/
def isIncomplete (source : Source) : Bool :=
  (Program.parse file source .empty).report.isIncomplete

/-- Takes what a prompt gave. Lines are collected as long as the text only fails to be a
program because it ends too early; an interrupt drops them, and the end of the input ends
them. -/
def step (printer : Printer) (r : Repl) : Input → Repl × Reaction
  | .line text =>
    let source := if r.pending.isEmpty then text else r.pending ++ newline :: text
    if isIncomplete source then ({ r with pending := source }, nothing)
    else submit printer r source
  | .abort => ({ r with pending := [] }, nothing)
  | .endOfInput =>
    if r.pending.isEmpty then (r, { nothing with out := "\n", finished := true })
    else submit printer r r.pending
  | .failure => (r, { nothing with out := "\n", finished := true })

/-- What a whole run of the loop shows. -/
structure Transcript where
  out : String
  err : String
  recorded : List Source
  prompts : List String
  unread : List Input
  session : Session

/-- The transcript with one more prompt and reaction before it. -/
def Transcript.after (t : Transcript) (prompt : String) (reaction : Reaction) : Transcript :=
  { t with
    out := reaction.out ++ t.out
    err := reaction.err ++ t.err
    recorded := reaction.recorded.toList ++ t.recorded
    prompts := prompt :: t.prompts }

/-- Nothing more is asked for. -/
def Transcript.ended (r : Repl) (unread : List Input) : Transcript :=
  ⟨"", "", [], [], unread, r.session⟩

/-- Past the inputs every prompt gives their end: once to end what is pending, and once to end
the loop. -/
def drain (printer : Printer) : Nat → Repl → Transcript
  | 0, r => .ended r []
  | rounds + 1, r =>
    let (next, reaction) := r.step printer .endOfInput
    let rest := if reaction.finished then .ended next [] else drain printer rounds next
    rest.after r.prompt reaction

/-- Runs the loop on the given inputs. -/
def run (printer : Printer) (r : Repl) : List Input → Transcript
  | [] => drain printer 2 r
  | input :: inputs =>
    let (next, reaction) := r.step printer input
    let rest := if reaction.finished then .ended next inputs else run printer next inputs
    rest.after r.prompt reaction

end Repl

end Ember
