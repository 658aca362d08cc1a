import Ember.Dot

namespace Ember.Dot

inductive Token where
  | word (text : String)
  | quoted (text : String)
  | arrow
  | mark (c : Char)
  deriving DecidableEq

def isBlank (c : Char) : Bool := c == ' ' || c == '\t' || c == '\n' || c == '\r'

def isMark (c : Char) : Bool :=
  c == '\x7b' || c == '\x7d' || c == '[' || c == ']' || c == ';' || c == ',' || c == '='

def isWordStart (c : Char) : Bool := c.isAlpha || c == '_'

def isWordChar (c : Char) : Bool := isWordStart c || c.isDigit

/-- What a place of a text is in the middle of. -/
inductive Reading where
  | blank
  | word (chars : List Char)
  | dash
  | quoted (chars : List Char)
  | escaped (chars : List Char)
  deriving DecidableEq

namespace Reading

/-- Reads a character between tokens: what it leaves open, and the tokens that end with it. -/
def start (c : Char) : Option (Reading × List Token) :=
  if isBlank c then some (blank, [])
  else if isMark c then some (blank, [.mark c])
  else if c = '-' then some (dash, [])
  else if c = '"' then some (quoted [], [])
  else if isWordStart c then some (word [c], [])
  else none

/-- Reads a character. Inside quotes a backslash before a quote makes it part of the text, one
before the end of a line drops it, and any other pair that begins with a backslash is kept. -/
def step : Reading → Char → Option (Reading × List Token)
  | blank, c => start c
  | word chars, c =>
    if isWordChar c then some (word (chars ++ [c]), [])
    else (start c).map fun (r, tokens) => (r, .word (String.ofList chars) :: tokens)
  | dash, c => if c = '>' then some (blank, [.arrow]) else none
  | quoted chars, c =>
    if c = '"' then some (blank, [.quoted (String.ofList chars)])
    else if c = '\\' then some (escaped chars, [])
    else some (quoted (chars ++ [c]), [])
  | escaped chars, c =>
    if c = '"' then some (quoted (chars ++ ['"']), [])
    else if c = '\n' then some (quoted chars, [])
    else some (quoted (chars ++ ['\\', c]), [])

/-- Reads characters. -/
def run : Reading → List Char → Option (Reading × List Token)
  | r, [] => some (r, [])
  | r, c :: rest => do
    let (r, tokens) ← r.step c
    let (r, more) ← run r rest
    return (r, tokens ++ more)

end Reading

/-- The tokens of a text, which does not end inside a token. -/
def tokens? (text : String) : Option (List Token) :=
  match Reading.run .blank text.toList with
  | some (.blank, tokens) => some tokens
  | _ => none

/-- The statements between braces, the tokens of each without its semicolon. -/
def rows : (before : List Token) → List Token → Option (List (List Token))
  | before, .mark ';' :: rest => (rows [] rest).map (before :: ·)
  | [], [.mark '\x7d'] => some []
  | _, .mark '\x7d' :: _ => none
  | before, t :: rest => rows (before ++ [t]) rest
  | _, [] => none

inductive Statement where
  | defaults (attributes : List (String × String))
  | node (name : String) (attributes : List (String × String))
  | edge (source target : String)

/-- The text of a word or a quoted text. -/
def Token.text? : Token → Option String
  | word text | quoted text => some text
  | arrow | mark _ => none

/-- Attributes up to the bracket that closes them. -/
def attributes? : List Token → Option (List (String × String))
  | [.mark ']'] => some []
  | [.word key, .mark '=', value, .mark ']'] => do return [(key, ← value.text?)]
  | .word key :: .mark '=' :: value :: .mark ',' :: rest => do
    return (key, ← value.text?) :: (← attributes? rest)
  | _ => none

def statement? : List Token → Option Statement
  | [.word source, .arrow, .word target] => some (.edge source target)
  | .word name :: .mark '[' :: rest =>
    if name ∈ ["graph", "node", "edge"] then (attributes? rest).map .defaults
    else (attributes? rest).map (.node name)
  | _ => none

/-- A graph of numbered nodes with labels. -/
structure Graph where
  name : String
  nodes : List (Nat × String)
  edges : List (Nat × Nat)
  deriving DecidableEq

/-- The number of the node with the given name. Other spellings of a number name other nodes. -/
def number? (name : String) : Option Nat :=
  match name.toList with
  | 'n' :: 'o' :: 'd' :: 'e' :: digits =>
    let n := Nat.ofDigitChars 10 digits 0
    if toString n = String.ofList digits then some n else none
  | _ => none

/-- The characters that a label shows. It has no escapes but that of the backslash. -/
def shown? : List Char → Option (List Char)
  | [] => some []
  | '\\' :: '\\' :: rest => (shown? rest).map ('\\' :: ·)
  | '\\' :: _ => none
  | c :: rest => (shown? rest).map (c :: ·)

namespace Graph

/-- The graph with a statement before its others. -/
def cons? (g : Graph) : Statement → Option Graph
  | .defaults _ => some g
  | .node name attributes => do
    let number ← number? name
    let label ← attributes.lookup "label"
    let chars ← shown? label.toList
    return { g with nodes := (number, String.ofList chars) :: g.nodes }
  | .edge source target => do
    let source ← number? source
    let target ← number? target
    return { g with edges := (source, target) :: g.edges }

/-- The graph of statements. -/
def ofRows? (name : String) : List (List Token) → Option Graph
  | [] => some ⟨name, [], []⟩
  | row :: rest => do
    let statement ← statement? row
    let g ← ofRows? name rest
    g.cons? statement

/-- The graph that a text tells of. Comments, numerals and texts in angle brackets are not read. -/
def read? (text : String) : Option Graph := do
  match ← tokens? text with
  | .word "digraph" :: .word name :: .mark '\x7b' :: rest => ofRows? name (← rows [] rest)
  | _ => none

end Graph

namespace Reading

/-- Reading the characters gives the tokens. -/
def Runs (r : Reading) (chars : List Char) (tokens : List Token) (r' : Reading) : Prop :=
  r.run chars = some (r', tokens)

instance (r r' : Reading) (chars : List Char) (tokens : List Token) :
    Decidable (r.Runs chars tokens r') :=
  inferInstanceAs (Decidable (_ = _))

variable {r r' r'' : Reading} {as bs : List Char} {ts us : List Token}

theorem Runs.cons {c : Char} (hstep : r.step c = some (r', ts)) (h : r'.Runs as us r'') :
    r.Runs (c :: as) (ts ++ us) r'' := by
  unfold Runs at h ⊢
  simp [run, hstep, h]

theorem Runs.append (h : r.Runs as ts r') (h' : r'.Runs bs us r'') :
    r.Runs (as ++ bs) (ts ++ us) r'' := by
  induction as generalizing r ts with
  | nil =>
    cases h
    exact h'
  | cons c as ih =>
    unfold Runs at h
    cases hstep : r.step c with
    | none => simp [run, hstep] at h
    | some x =>
      obtain ⟨r₁, first⟩ := x
      cases hrun : r₁.run as with
      | none => simp [run, hstep, hrun] at h
      | some y =>
        obtain ⟨r₂, more⟩ := y
        simp only [run, hstep, hrun, Option.bind_eq_bind, Option.bind_some, Option.pure_def,
          Option.some.injEq, Prod.mk.injEq] at h
        obtain ⟨rfl, rfl⟩ := h
        rw [List.append_assoc]
        exact .cons hstep (ih hrun)

theorem runs_word (chars : List Char) {more : List Char} (h : ∀ c ∈ more, isWordChar c) :
    (word chars).Runs more [] (word (chars ++ more)) := by
  induction more generalizing chars with
  | nil =>
    rw [List.append_nil]
    rfl
  | cons c more ih =>
    obtain ⟨hc, hmore⟩ := List.forall_mem_cons.1 h
    have hstep : (word chars).step c = some (word (chars ++ [c]), []) := if_pos hc
    rw [List.append_cons]
    exact .cons hstep (ih _ hmore)

/-- Reading several texts in turn. -/
theorem runs_join {α : Type} {spell : α → String} {tokens : α → List Token} {xs : List α}
    (h : ∀ x ∈ xs, blank.Runs (spell x).toList (tokens x) blank) :
    blank.Runs (String.join (xs.map spell)).toList (xs.flatMap tokens) blank := by
  induction xs with
  | nil =>
    rw [List.map_nil, String.join_nil]
    rfl
  | cons x xs ih =>
    obtain ⟨hx, hxs⟩ := List.forall_mem_cons.1 h
    rw [List.map_cons, String.join_cons, String.toList_append, List.flatMap_cons]
    exact hx.append (ih hxs)

end Reading

theorem tokens?_eq {text : String} {ts : List Token}
    (h : Reading.Runs .blank text.toList ts .blank) : tokens? text = some ts := by
  unfold Reading.Runs at h
  rw [tokens?, h]

end Ember.Dot
