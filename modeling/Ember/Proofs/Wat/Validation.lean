import Ember.Proofs.Wat.Sexp

namespace Ember.Wat

inductive ValType where
  | i32
  | i64
  deriving DecidableEq

def ValType.name : ValType → String
  | i32 => "i32"
  | i64 => "i64"

/-- What an instruction or a function takes and leaves. -/
structure Signature where
  params : List ValType
  results : List ValType
  deriving DecidableEq

/-- The names that instructions may use. Variables hold wide words, and labels take nothing from
the stack. -/
structure Context where
  funcs : List (String × Signature)
  globals : List String
  locals : List String
  labels : List String
  results : List ValType

/-- The name is among the names, and only once. -/
def DeclaredOnce (name : String) (names : List String) : Prop := names.count name = 1

/-- The instructions on numbers. -/
def numeric : List (String × Signature) :=
  (["i64.add", "i64.sub", "i64.mul", "i64.div_s", "i64.div_u", "i64.rem_s", "i64.rem_u",
      "i64.and"].map (·, ⟨[.i64, .i64], [.i64]⟩)) ++
    (["i64.eq", "i64.ne", "i64.lt_s", "i64.lt_u", "i64.gt_s", "i64.gt_u", "i64.le_s", "i64.le_u",
      "i64.ge_s", "i64.ge_u"].map (·, ⟨[.i64, .i64], [.i32]⟩)) ++
    (["i64.extend8_s", "i64.extend16_s", "i64.extend32_s"].map (·, ⟨[.i64], [.i64]⟩)) ++
    [("i64.eqz", ⟨[.i64], [.i32]⟩), ("i64.extend_i32_u", ⟨[.i32], [.i64]⟩)]

/-- The instructions take and leave operands of these types. -/
inductive HasType : Context → List Sexp → List ValType → List ValType → Prop where
  | nil {c : Context} : HasType c [] [] []
  | append {c : Context} {code more : List Sexp} {ts us vs : List ValType}
      (hcode : HasType c code ts us) (hmore : HasType c more us vs) : HasType c (code ++ more) ts vs
  /-- What lies below is left alone. -/
  | frame {c : Context} {code : List Sexp} {ts us : List ValType} (below : List ValType)
      (hcode : HasType c code ts us) : HasType c code (below ++ ts) (below ++ us)
  | const {c : Context} (v : Int) (hlow : -9223372036854775808 ≤ v)
      (hhigh : v < 18446744073709551616) :
      HasType c [.atom "i64.const", .atom (toString v)] [] [.i64]
  | localGet {c : Context} {x : String} (hx : DeclaredOnce x c.locals) :
      HasType c [.atom "local.get", .atom x] [] [.i64]
  | localSet {c : Context} {x : String} (hx : DeclaredOnce x c.locals) :
      HasType c [.atom "local.set", .atom x] [.i64] []
  | localTee {c : Context} {x : String} (hx : DeclaredOnce x c.locals) :
      HasType c [.atom "local.tee", .atom x] [.i64] [.i64]
  | globalGet {c : Context} {x : String} (hx : DeclaredOnce x c.globals) :
      HasType c [.atom "global.get", .atom x] [] [.i64]
  | globalSet {c : Context} {x : String} (hx : DeclaredOnce x c.globals) :
      HasType c [.atom "global.set", .atom x] [.i64] []
  | call {c : Context} {f : String} {s : Signature} (honce : DeclaredOnce f (c.funcs.map (·.1)))
      (hf : (f, s) ∈ c.funcs) : HasType c [.atom "call", .atom f] s.params s.results
  | numeric {c : Context} {op : String} {s : Signature} (hop : (op, s) ∈ numeric) :
      HasType c [.atom op] s.params s.results
  | drop {c : Context} (t : ValType) : HasType c [.atom "drop"] [t] []
  /-- What follows is never reached, so that it may find any stack. -/
  | ret {c : Context} (below after : List ValType) :
      HasType c [.atom "return"] (below ++ c.results) after
  | br {c : Context} {l : String} (hl : DeclaredOnce l c.labels) (below after : List ValType) :
      HasType c [.atom "br", .atom l] below after
  | brIf {c : Context} {l : String} (hl : DeclaredOnce l c.labels) :
      HasType c [.atom "br_if", .atom l] [.i32] []
  | block {c : Context} {l : String} {body : List Sexp}
      (hbody : HasType { c with labels := l :: c.labels } body [] []) :
      HasType c [.list (.atom "block" :: .atom l :: body)] [] []
  | loop {c : Context} {l : String} {body : List Sexp}
      (hbody : HasType { c with labels := l :: c.labels } body [] []) :
      HasType c [.list (.atom "loop" :: .atom l :: body)] [] []
  | ifThen {c : Context} {body : List Sexp} (hbody : HasType c body [] []) :
      HasType c [.list [.atom "if", .list (.atom "then" :: body)]] [.i32] []
  | ifElse {c : Context} {body other : List Sexp} (hbody : HasType c body [] [])
      (hother : HasType c other [] []) :
      HasType c [.list [.atom "if", .list (.atom "then" :: body), .list (.atom "else" :: other)]]
        [.i32] []

/-- A function of the host. -/
structure TextImport where
  module : String
  field : String
  name : String
  params : List ValType

/-- A function, which leaves one wide word. Its parameters and variables hold wide words. -/
structure TextFunc where
  name : String
  exported : Option String
  params : List String
  locals : List String
  body : List Sexp

/-- A module. Its globals hold wide words and start as zero. -/
structure TextModule where
  imports : List TextImport
  globals : List String
  funcs : List TextFunc

def TextImport.sexp (i : TextImport) : Sexp :=
  .list [.atom "import", .quoted i.module, .quoted i.field,
    .list (.atom "func" :: .atom i.name ::
      if i.params = [] then [] else [.list (.atom "param" :: i.params.map fun t => .atom t.name)])]

/-- A variable of a function. -/
def variableSexp (kind name : String) : Sexp := .list [.atom kind, .atom name, .atom "i64"]

def globalSexp (name : String) : Sexp :=
  .list [.atom "global", .atom name, .list [.atom "mut", .atom "i64"],
    .list [.atom "i64.const", .atom "0"]]

def TextFunc.sexp (f : TextFunc) : Sexp :=
  .list ([.atom "func", .atom f.name] ++
    f.exported.toList.map (fun name => .list [.atom "export", .quoted name]) ++
    f.params.map (variableSexp "param") ++ [.list [.atom "result", .atom "i64"]] ++
    f.locals.map (variableSexp "local") ++ f.body)

namespace TextModule

def sexp (m : TextModule) : Sexp :=
  .list (.atom "module" ::
    (m.imports.map TextImport.sexp ++ m.globals.map globalSexp ++ m.funcs.map TextFunc.sexp))

/-- Functions can be called by their names, also before they are defined. -/
def signatures (m : TextModule) : List (String × Signature) :=
  m.imports.map (fun i => (i.name, ⟨i.params, []⟩)) ++
    m.funcs.map fun f => (f.name, ⟨f.params.map fun _ => .i64, [.i64]⟩)

/-- What the body of a function may use. -/
def context (m : TextModule) (f : TextFunc) : Context :=
  ⟨m.signatures, m.globals, f.params ++ f.locals, [], [.i64]⟩

/-- A name starts with a dollar sign, and more follows it. -/
def IsIdentifier (name : String) : Prop :=
  IsWord name ∧ name.toList.head? = some '$' ∧ 1 < name.toList.length

instance (name : String) : Decidable (IsIdentifier name) := inferInstanceAs (Decidable (_ ∧ _))

/-- The module is valid: names are names, each is declared once, and every function leaves one wide
word. -/
structure Valid (m : TextModule) : Prop where
  funcs_nodup : (m.signatures.map (·.1)).Nodup
  globals_nodup : m.globals.Nodup
  exports_nodup : (m.funcs.filterMap (·.exported)).Nodup
  isIdentifier : ∀ name ∈ m.signatures.map (·.1) ++ m.globals, IsIdentifier name
  locals_nodup : ∀ f ∈ m.funcs, (f.params ++ f.locals).Nodup
  isIdentifier_local : ∀ f ∈ m.funcs, ∀ name ∈ f.params ++ f.locals, IsIdentifier name
  hasType : ∀ f ∈ m.funcs, HasType (m.context f) f.body [] [.i64]

end TextModule

end Ember.Wat
