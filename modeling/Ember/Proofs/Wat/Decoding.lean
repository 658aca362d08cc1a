import Ember.Proofs.Wat.Spelling
import Mathlib.Data.List.Basic

namespace Ember.Wat

/-- The number that decimal digits stand for. -/
def natural? (digits : List Char) : Option Nat :=
  if digits ≠ [] ∧ digits.all Char.isDigit then some (Nat.ofDigitChars 10 digits 0) else none

/-- The number that decimal digits stand for, with a sign before them or without one. -/
def integer? : List Char → Option Int
  | '-' :: digits => (natural? digits).map fun n => -n
  | digits => (natural? digits).map Int.ofNat

/-- The number that a name has after its stem. There is one way to write it, so that names differ
where their numbers do. -/
def numberAfter? (stem name : String) : Option Int := do
  let v ← integer? (← stem.toList.isPrefixOf? name.toList)
  if stem ++ toString v = name then some v else none

/-- The number of a name that counts from zero. -/
def indexAfter? (stem name : String) : Option Nat := (numberAfter? stem name).bind Int.toNat?

def Local.ofName? (name : String) : Option Local :=
  (indexAfter? "$p" name).map .param <|> (indexAfter? "$l" name).map .temp

def Label.ofName? (name : String) : Option Label :=
  (indexAfter? "$brk" name).map .brk <|> (indexAfter? "$cont" name).map .cont

/-- The word that a decimal constant gives. -/
def constant? (text : String) : Option Int64 := do
  let v ← integer? text.toList
  if -9223372036854775808 ≤ v ∧ v < 18446744073709551616 then some (Int64.ofInt v) else none

/-- The functions that a module calls by names, besides those with a number. -/
abbrev Hosts := List (String × FuncRef)

def FuncRef.ofName? (hosts : Hosts) (name : String) : Option FuncRef :=
  hosts.lookup name <|> (numberAfter? "$f" name).map .user

/-- The instructions of one word. -/
def plainInstrs : List (String × Instr) :=
  [("i64.add", .num .add), ("i64.sub", .num .sub), ("i64.mul", .num .mul),
    ("i64.div_s", .num .divS), ("i64.div_u", .num .divU), ("i64.rem_s", .num .remS),
    ("i64.rem_u", .num .remU), ("i64.and", .num .and), ("i64.eq", .num .eq), ("i64.ne", .num .ne),
    ("i64.lt_s", .num .ltS), ("i64.lt_u", .num .ltU), ("i64.gt_s", .num .gtS),
    ("i64.gt_u", .num .gtU), ("i64.le_s", .num .leS), ("i64.le_u", .num .leU),
    ("i64.ge_s", .num .geS), ("i64.ge_u", .num .geU), ("i64.eqz", .num .eqz),
    ("i64.extend_i32_u", .num .extendI32U), ("i64.extend8_s", .num .extend8S),
    ("i64.extend16_s", .num .extend16S), ("i64.extend32_s", .num .extend32S), ("drop", .drop),
    ("return", .ret)]

/-- The instructions of two words, of which the second says what they work on. -/
def operandInstrs (hosts : Hosts) : List (String × (String → Option Instr)) :=
  [("i64.const", fun text => (constant? text).map .const),
    ("local.get", fun name => (Local.ofName? name).map .localGet),
    ("local.set", fun name => (Local.ofName? name).map .localSet),
    ("local.tee", fun name => (Local.ofName? name).map .localTee),
    ("global.get", fun name => (numberAfter? "$g" name).map .globalGet),
    ("global.set", fun name => (numberAfter? "$g" name).map .globalSet),
    ("call", fun name => (FuncRef.ofName? hosts name).map .call),
    ("br", fun name => (Label.ofName? name).map .br),
    ("br_if", fun name => (Label.ofName? name).map .brIf)]

/-- The instructions between parentheses that carry a label. -/
def labelledInstrs : List (String × (Label → List Instr → Instr)) :=
  [("block", .block), ("loop", .loop)]

mutual

/-- The instructions that a row of trees stands for. -/
def Instr.ofSexps? (hosts : Hosts) : List Sexp → Option (List Instr)
  | [] => some []
  | .quoted _ :: _ => none
  | .list items :: rest =>
    (Instr.ofItems? hosts items).bind fun i => (Instr.ofSexps? hosts rest).map (i :: ·)
  | .atom word :: rest =>
    match plainInstrs.lookup word with
    | some i => (Instr.ofSexps? hosts rest).map (i :: ·)
    | none =>
      match rest with
      | .atom operand :: rest =>
        ((operandInstrs hosts).lookup word).bind fun read =>
          (read operand).bind fun i => (Instr.ofSexps? hosts rest).map (i :: ·)
      | _ => none

/-- The instruction that stands between parentheses. -/
def Instr.ofItems? (hosts : Hosts) : List Sexp → Option Instr
  | .atom word :: .atom label :: body => do
    return (← labelledInstrs.lookup word) (← Label.ofName? label) (← Instr.ofSexps? hosts body)
  | [.atom word, .list (.atom arm :: body)] =>
    if word = "if" ∧ arm = "then" then do return .cond (← Instr.ofSexps? hosts body) none else none
  | [.atom word, .list (.atom arm :: body), .list (.atom arm' :: other)] =>
    if word = "if" ∧ arm = "then" ∧ arm' = "else" then do
      return .cond (← Instr.ofSexps? hosts body) (some (← Instr.ofSexps? hosts other))
    else none
  | _ => none

end

def ValType.ofSexp? : Sexp → Option ValType
  | .atom word => [("i32", ValType.i32), ("i64", .i64)].lookup word
  | _ => none

/-- What follows the word of an import. -/
def TextImport.ofItems? : List Sexp → Option TextImport
  | [.quoted module, .quoted field, .list [.atom kind, .atom name]] =>
    if kind = "func" then some ⟨module, field, name, []⟩ else none
  | [.quoted module, .quoted field, .list [.atom kind, .atom name, .list (.atom word :: types)]] =>
    if kind = "func" ∧ word = "param" then do
      return ⟨module, field, name, ← types.mapM ValType.ofSexp?⟩
    else none
  | _ => none

/-- What follows the word of a global, which starts as zero. -/
def globalOfItems? : List Sexp → Option String
  | [.atom name, .list [.atom access, .atom type], .list [.atom op, .atom value]] =>
    if access = "mut" ∧ type = "i64" ∧ op = "i64.const" ∧ constant? value = some 0 then some name
    else none
  | _ => none

def exportName? : Sexp → Option String
  | .list [.atom word, .quoted name] => if word = "export" then some name else none
  | _ => none

/-- The name under which a function is exported, if it is, and what follows. -/
def exportOf : List Sexp → Option String × List Sexp
  | [] => (none, [])
  | s :: rest =>
    match exportName? s with
    | some name => (some name, rest)
    | none => (none, s :: rest)

def variableName? (kind : String) : Sexp → Option String
  | .list [.atom word, .atom name, .atom type] =>
    if word = kind ∧ type = "i64" then some name else none
  | _ => none

/-- The variables of a kind that come first, and what follows them. -/
def variablesOf (kind : String) : List Sexp → List String × List Sexp
  | [] => ([], [])
  | s :: rest =>
    match variableName? kind s with
    | some name => (name :: (variablesOf kind rest).1, (variablesOf kind rest).2)
    | none => ([], s :: rest)

/-- What follows the word of a function. -/
def TextFunc.ofItems? : List Sexp → Option TextFunc
  | .atom name :: rest =>
    let (exported, rest) := exportOf rest
    let (params, rest) := variablesOf "param" rest
    match rest with
    | .list [.atom word, .atom type] :: rest =>
      let (locals, body) := variablesOf "local" rest
      if word = "result" ∧ type = "i64" then some ⟨name, exported, params, locals, body⟩ else none
    | _ => none
  | _ => none

/-- What a module consists of. -/
inductive Field where
  | imported (i : TextImport)
  | global (name : String)
  | func (f : TextFunc)

namespace Field

def readers : List (String × (List Sexp → Option Field)) :=
  [("import", fun items => (TextImport.ofItems? items).map .imported),
    ("global", fun items => (globalOfItems? items).map .global),
    ("func", fun items => (TextFunc.ofItems? items).map .func)]

def ofSexp? : Sexp → Option Field
  | .list (.atom word :: items) => do (← readers.lookup word) items
  | _ => none

def imported? : Field → Option TextImport
  | imported i => some i
  | _ => none

def global? : Field → Option String
  | global name => some name
  | _ => none

def func? : Field → Option TextFunc
  | func f => some f
  | _ => none

end Field

def TextModule.ofSexp? : Sexp → Option TextModule
  | .list (.atom word :: items) =>
    if word = "module" then do
      let fields ← items.mapM Field.ofSexp?
      return ⟨fields.filterMap Field.imported?, fields.filterMap Field.global?,
        fields.filterMap Field.func?⟩
    else none
  | _ => none

/-- The functions of the host, by the names and the types under which they are imported. -/
def hostFuncs : List ((String × List ValType) × FuncRef) :=
  [(("print_i64", [.i64]), .printI64), (("print_u64", [.i64]), .printU64),
    (("print_bool", [.i64]), .printBool), (("print_space", []), .printSpace),
    (("print_newline", []), .printNewline)]

def TextImport.host? (i : TextImport) : Option (String × FuncRef) :=
  if i.module = "ember" then (hostFuncs.lookup (i.field, i.params)).map (i.name, ·) else none

/-- The body of a function, of which the parameters and variables are numbered in their order. -/
def TextFunc.code? (hosts : Hosts) (f : TextFunc) : Option (List Instr) :=
  if f.params.map Local.ofName? = (List.range f.params.length).map (some ∘ Local.param) ∧
      f.locals.map Local.ofName? = (List.range f.locals.length).map (some ∘ Local.temp) then
    Instr.ofSexps? hosts f.body
  else none

def TextFunc.func? (hosts : Hosts) (f : TextFunc) : Option Func := do
  return ⟨← numberAfter? "$f" f.name, f.params.length, f.locals.length, ← f.code? hosts⟩

def TextFunc.isStart (f : TextFunc) : Bool := f.exported == some "_start" && f.params.isEmpty

/-- The module that starts with the function exported as its start, and whose functions are those
that are not exported. -/
def TextModule.module? (m : TextModule) : Option Module := do
  let hosts ← m.imports.mapM TextImport.host?
  let globals ← m.globals.mapM (numberAfter? "$g")
  let funcs ← (m.funcs.filter (·.exported.isNone)).mapM (TextFunc.func? hosts)
  let start ← m.funcs.find? TextFunc.isStart
  return ⟨globals, funcs, start.locals.length, ← start.code? hosts⟩

/-- The module that a text stands for. -/
def Module.ofText? (text : String) : Option Module :=
  match Sexp.read text with
  | some [s] => (TextModule.ofSexp? s).bind TextModule.module?
  | _ => none

theorem natural?_toString (n : Nat) : natural? (toString n).toList = some n := by
  have hdigits : ∀ c ∈ (toString n).toList, c.isDigit := by
    rw [toList_toString_nat]
    exact fun c => Nat.isDigit_of_mem_toDigits (by omega) (by omega)
  rw [natural?, if_pos ⟨(isWord_toString_nat n).1, List.all_eq_true.2 hdigits⟩, toList_toString_nat,
    Nat.ofDigitChars_ten_toDigits]

theorem integer?_toString (v : Int) : integer? (toString v).toList = some v := by
  cases v with
  | ofNat n =>
    have hnumber := natural?_toString n
    change integer? (toString n).toList = _
    unfold integer?
    split
    · rename_i digits heq
      rw [heq] at hnumber
      cases hnumber
    · rw [hnumber]
      rfl
  | negSucc n =>
    have htext : (toString (Int.negSucc n)).toList = '-' :: (toString (n + 1)).toList := by
      rw [show toString (Int.negSucc n) = "-" ++ toString (n + 1) from rfl, String.toList_append]
      rfl
    rw [htext, integer?, natural?_toString]
    rfl

theorem numberAfter?_append (stem : String) (v : Int) :
    numberAfter? stem (stem ++ toString v) = some v := by
  have hdigits : stem.toList.isPrefixOf? (stem ++ toString v).toList = some (toString v).toList :=
    List.isPrefixOf?_eq_some_iff_append_eq.2 String.toList_append.symm
  simp only [numberAfter?, hdigits, integer?_toString, Option.bind_eq_bind, Option.bind_some,
    if_true]

theorem indexAfter?_append (stem : String) (n : Nat) :
    indexAfter? stem (stem ++ toString n) = some n := by
  have hnumber : numberAfter? stem (stem ++ toString n) = some (n : Int) :=
    numberAfter?_append stem n
  rw [indexAfter?, hnumber]
  rfl

/-- A name with another stem has no number after this one. -/
theorem indexAfter?_eq_none {stem other : String}
    (h : ∀ rest, stem.toList.isPrefixOf? (other.toList ++ rest) = none) (rest : String) :
    indexAfter? stem (other ++ rest) = none := by
  rw [indexAfter?, numberAfter?, String.toList_append, h]
  rfl

theorem Local.ofName?_name (x : Local) : Local.ofName? x.name = some x := by
  cases x with
  | param i =>
    rw [ofName?, name, indexAfter?_append]
    rfl
  | temp i =>
    have hother : indexAfter? "$p" ("$l" ++ toString i) = none :=
      indexAfter?_eq_none (fun _ => rfl) _
    rw [ofName?, name, hother, indexAfter?_append]
    rfl

theorem Label.ofName?_name (l : Label) : Label.ofName? l.name = some l := by
  cases l with
  | brk n =>
    rw [ofName?, name, indexAfter?_append]
    rfl
  | cont n =>
    have hother : indexAfter? "$brk" ("$cont" ++ toString n) = none :=
      indexAfter?_eq_none (fun _ => rfl) _
    rw [ofName?, name, hother, indexAfter?_append]
    rfl

theorem constant?_toString (v : Int64) : constant? (toString v.toInt) = some v := by
  have hlow := v.le_toInt
  have hhigh := v.toInt_lt
  rw [constant?, integer?_toString, Option.bind_eq_bind, Option.bind_some,
    if_pos ⟨by omega, by omega⟩, Int64.ofInt_toInt]

theorem lookup_plainInstrs (op : NumOp) : plainInstrs.lookup op.name = some (.num op) := by
  cases op <;> rfl

variable {hosts : Hosts}

/-- Every function is found by its name. -/
def Resolves (hosts : Hosts) : Prop := ∀ f : FuncRef, FuncRef.ofName? hosts f.name = some f

theorem ofSexps?_word {word : String} {i : Instr} (h : plainInstrs.lookup word = some i)
    (rest : List Sexp) : Instr.ofSexps? hosts (.atom word :: rest) =
      (Instr.ofSexps? hosts rest).map (i :: ·) := by
  rw [Instr.ofSexps?.eq_def]
  simp only [h]

theorem ofSexps?_operand {word operand : String} {read : String → Option Instr} {i : Instr}
    (hword : plainInstrs.lookup word = none)
    (hread : (operandInstrs hosts).lookup word = some read) (h : read operand = some i)
    (rest : List Sexp) : Instr.ofSexps? hosts (.atom word :: .atom operand :: rest) =
      (Instr.ofSexps? hosts rest).map (i :: ·) := by
  simp only [Instr.ofSexps?, hword, hread, h, Option.bind_some]

theorem ofSexps?_list {items : List Sexp} {i : Instr} (h : Instr.ofItems? hosts items = some i)
    (rest : List Sexp) : Instr.ofSexps? hosts (.list items :: rest) =
      (Instr.ofSexps? hosts rest).map (i :: ·) := by
  rw [Instr.ofSexps?, h, Option.bind_some]

mutual

/-- An instruction is read back from its trees, whatever follows them. -/
theorem ofSexps?_sexps (hresolves : Resolves hosts) (rest : List Sexp) :
    (i : Instr) → Instr.ofSexps? hosts (i.sexps ++ rest) =
      (Instr.ofSexps? hosts rest).map (i :: ·)
  | .const v =>
    ofSexps?_operand rfl rfl (congrArg (Option.map Instr.const) (constant?_toString v)) rest
  | .localGet x => ofSexps?_operand rfl rfl (congrArg _ x.ofName?_name) rest
  | .localSet x => ofSexps?_operand rfl rfl (congrArg _ x.ofName?_name) rest
  | .localTee x => ofSexps?_operand rfl rfl (congrArg _ x.ofName?_name) rest
  | .globalGet id => ofSexps?_operand rfl rfl (congrArg _ (numberAfter?_append "$g" id)) rest
  | .globalSet id => ofSexps?_operand rfl rfl (congrArg _ (numberAfter?_append "$g" id)) rest
  | .call f => ofSexps?_operand rfl rfl (congrArg _ (hresolves f)) rest
  | .num op => ofSexps?_word (lookup_plainInstrs op) rest
  | .drop | .ret => ofSexps?_word rfl rest
  | .br l => ofSexps?_operand rfl rfl (congrArg _ l.ofName?_name) rest
  | .brIf l => ofSexps?_operand rfl rfl (congrArg _ l.ofName?_name) rest
  | .block l body | .loop l body => by
    refine ofSexps?_list ?_ rest
    rw [Instr.ofItems?, l.ofName?_name, ofSexps?_sexpsAll hresolves body]
    rfl
  | .cond body none => by
    refine ofSexps?_list ?_ rest
    rw [Instr.ofItems?, ofSexps?_sexpsAll hresolves body]
    rfl
  | .cond body (some other) => by
    refine ofSexps?_list ?_ rest
    rw [Instr.ofItems?, ofSexps?_sexpsAll hresolves body, ofSexps?_sexpsAll hresolves other]
    rfl

theorem ofSexps?_sexpsAll (hresolves : Resolves hosts) :
    (code : List Instr) → Instr.ofSexps? hosts (Instr.sexpsAll code) = some code
  | [] => by rw [Instr.sexpsAll, Instr.ofSexps?]
  | i :: code => by
    rw [Instr.sexpsAll, ofSexps?_sexps hresolves _ i, ofSexps?_sexpsAll hresolves code]
    rfl

end

theorem variablesOf_append {kind : String} {rest : List Sexp}
    (h : ∀ s ∈ rest.head?, variableName? kind s = none) (names : List String) :
    variablesOf kind (names.map (variableSexp kind) ++ rest) = (names, rest) := by
  induction names with
  | nil =>
    cases rest with
    | nil => rfl
    | cons s rest => rw [List.map_nil, List.nil_append, variablesOf, h s rfl]
  | cons name names ih =>
    have hname : variableName? kind (variableSexp kind name) = some name := if_pos ⟨rfl, rfl⟩
    rw [List.map_cons, List.cons_append, variablesOf, hname]
    simp only [ih]

theorem variableName?_eq_none {kind word : String} (h : word ≠ kind) (items : List Sexp) :
    variableName? kind (.list (.atom word :: items)) = none := by
  unfold variableName?
  split
  · rename_i heq
    cases heq
    exact if_neg fun hkind => h hkind.1
  · rfl

/-- No instruction looks like the declaration of a variable. -/
theorem variableName?_sexpsAll (code : List Instr) :
    ∀ s ∈ (Instr.sexpsAll code).head?, variableName? "local" s = none := by
  intro s hs
  cases code with
  | nil => cases hs
  | cons i code =>
    cases i with
    | block | loop =>
      cases hs
      exact variableName?_eq_none (by decide) _
    | cond body other =>
      cases other <;> cases hs <;> exact variableName?_eq_none (by decide) _
    | _ => cases hs; rfl

theorem exportOf_append {rest : List Sexp} (h : ∀ s ∈ rest.head?, exportName? s = none)
    (name : Option String) :
    exportOf (name.toList.map (fun name => .list [.atom "export", .quoted name]) ++ rest) =
      (name, rest) := by
  cases name with
  | none =>
    cases rest with
    | nil => rfl
    | cons s rest =>
      simp only [Option.toList_none, List.map_nil, List.nil_append, exportOf, h s rfl]
  | some name => rfl

/-- A function is read back from its tree, in which the body starts with no variable. -/
theorem TextFunc.ofSexp?_sexp (f : TextFunc)
    (hbody : ∀ s ∈ f.body.head?, variableName? "local" s = none) :
    Field.ofSexp? f.sexp = some (.func f) := by
  obtain ⟨name, exported, params, locals, body⟩ := f
  let result : List Sexp :=
    .list [.atom "result", .atom "i64"] :: (locals.map (variableSexp "local") ++ body)
  have hlocals := variablesOf_append hbody locals
  have hparams : variablesOf "param" (params.map (variableSexp "param") ++ result) =
      (params, result) := variablesOf_append (fun s hs => by cases hs; rfl) params
  have hexport := exportOf_append
    (fun s (hs : s ∈ (params.map (variableSexp "param") ++ result).head?) => by
      cases params <;> cases hs <;> rfl) exported
  have hread : TextFunc.ofItems? (.atom name ::
      (exported.toList.map (fun name => .list [.atom "export", .quoted name]) ++
        (params.map (variableSexp "param") ++ result))) =
      some ⟨name, exported, params, locals, body⟩ := by
    simp only [TextFunc.ofItems?, hexport, hparams, hlocals, result, and_self, if_true]
  simp only [TextFunc.sexp, List.append_assoc, List.cons_append, List.nil_append]
  exact congrArg (Option.map Field.func) hread

theorem mapM_map_eq_some {α β γ : Type} {spell : α → β} {read : β → Option γ} {value : α → γ}
    {xs : List α} (h : ∀ x ∈ xs, read (spell x) = some (value x)) :
    (xs.map spell).mapM read = some (xs.map value) := by
  induction xs with
  | nil => rfl
  | cons x xs ih =>
    obtain ⟨hx, hxs⟩ := List.forall_mem_cons.1 h
    rw [List.map_cons, List.mapM_cons, hx, ih hxs]
    rfl

theorem mapM_map_eq_self {α β : Type} {spell : α → β} {read : β → Option α} {xs : List α}
    (h : ∀ x ∈ xs, read (spell x) = some x) : (xs.map spell).mapM read = some xs := by
  have hread : (xs.map spell).mapM read = some (xs.map id) := mapM_map_eq_some h
  rwa [List.map_id] at hread

theorem TextImport.ofSexp?_sexp (i : TextImport) : Field.ofSexp? i.sexp = some (.imported i) := by
  obtain ⟨module, field, name, params⟩ := i
  cases params with
  | nil => rfl
  | cons t rest =>
    have htypes : ((t :: rest).map fun t => Sexp.atom t.name).mapM ValType.ofSexp? =
        some (t :: rest) :=
      mapM_map_eq_self fun t _ => by cases t <;> rfl
    have hread : TextImport.ofItems? [.quoted module, .quoted field, .list [.atom "func",
        .atom name, .list (.atom "param" :: (t :: rest).map fun t => .atom t.name)]] =
        some ⟨module, field, name, t :: rest⟩ := by
      simp only [TextImport.ofItems?, htypes, and_self, if_true]
      rfl
    exact congrArg (Option.map Field.imported) hread

theorem ofSexp?_globalSexp (name : String) :
    Field.ofSexp? (globalSexp name) = some (.global name) := by
  have hzero : constant? "0" = some 0 := constant?_toString 0
  have hread : globalOfItems? [.atom name, .list [.atom "mut", .atom "i64"],
      .list [.atom "i64.const", .atom "0"]] = some name := by
    simp only [globalOfItems?, hzero, and_self, if_true]
  exact congrArg (Option.map Field.global) hread

theorem TextModule.ofSexp?_sexp (m : TextModule)
    (hbody : ∀ f ∈ m.funcs, ∀ s ∈ f.body.head?, variableName? "local" s = none) :
    TextModule.ofSexp? m.sexp = some m := by
  have himports := mapM_map_eq_some fun i (_ : i ∈ m.imports) => i.ofSexp?_sexp
  have hglobals := mapM_map_eq_some fun name (_ : name ∈ m.globals) => ofSexp?_globalSexp name
  have hfuncs := mapM_map_eq_some fun f (hf : f ∈ m.funcs) => f.ofSexp?_sexp (hbody f hf)
  rw [TextModule.sexp, TextModule.ofSexp?, if_pos rfl, List.mapM_append, List.mapM_append, himports,
    hglobals, hfuncs]
  simp [List.filterMap_append, List.filterMap_map, Function.comp_def, Field.imported?,
    Field.global?, Field.func?]

/-- The names under which a module imports the functions of the host. -/
def hostNames : Hosts :=
  [("$print_i64", .printI64), ("$print_u64", .printU64), ("$print_bool", .printBool),
    ("$print_space", .printSpace), ("$print_newline", .printNewline)]

theorem resolves_hostNames : Resolves hostNames := by
  intro f
  cases f with
  | user id =>
    have hnone : hostNames.lookup (FuncRef.user id).name = none := by
      have hnames : ∀ entry ∈ hostNames, entry.1.toList[1]? ≠ some 'f' := by decide
      exact List.lookup_eq_none_iff.2 fun entry hentry =>
        bne_iff_ne.2 (userName_ne id (hnames entry hentry))
    rw [FuncRef.ofName?, hnone, FuncRef.name, numberAfter?_append]
    rfl
  | _ => rfl

theorem TextFunc.code?_eq {f : TextFunc} {params locals : Nat} {code : List Instr}
    (hparams : f.params = paramNames params) (hlocals : f.locals = tempNames locals)
    (hbody : f.body = Instr.sexpsAll code) : f.code? hostNames = some code := by
  obtain ⟨name, exported, _, _, _⟩ := f
  cases hparams
  cases hlocals
  cases hbody
  rw [code?, if_pos ?_, ofSexps?_sexpsAll resolves_hostNames]
  constructor <;> simp [Function.comp_def, Local.ofName?_name]

theorem Func.func?_text (f : Func) : f.text.func? hostNames = some f := by
  have hname : numberAfter? "$f" f.text.name = some f.id := numberAfter?_append "$f" f.id
  have hcode : f.text.code? hostNames = some f.body := TextFunc.code?_eq rfl rfl rfl
  rw [TextFunc.func?, hname, hcode]
  simp [Func.text, paramNames, tempNames]

theorem Module.module?_text (m : Module) : m.text.module? = some m := by
  have hhosts : hostImports.mapM TextImport.host? = some hostNames := rfl
  have hglobals : (m.globals.map globalName).mapM (numberAfter? "$g") = some m.globals :=
    mapM_map_eq_self fun id _ => numberAfter?_append "$g" id
  have hfuncs : (m.funcs.map Func.text).mapM (TextFunc.func? hostNames) = some m.funcs :=
    mapM_map_eq_self fun f _ => f.func?_text
  have hcode : m.startText.code? hostNames = some m.startBody :=
    TextFunc.code?_eq (rfl : _ = paramNames 0) rfl rfl
  have hinner : (m.funcs.map Func.text ++ [m.startText]).filter (·.exported.isNone) =
      m.funcs.map Func.text := by
    simp [List.filter_append, Func.text, startText]
  have hstart : (m.funcs.map Func.text ++ [m.startText]).find? TextFunc.isStart =
      some m.startText := by
    have hnone : (m.funcs.map Func.text).find? TextFunc.isStart = none :=
      List.find?_eq_none.2 (List.forall_mem_map.2 fun f _ => Bool.false_ne_true)
    rw [List.find?_append, hnone]
    rfl
  simp only [TextModule.module?, text, hhosts, hglobals, hinner, hfuncs, hstart, hcode,
    Option.bind_eq_bind, Option.bind_some]
  simp [startText, tempNames]

/-- A module is read back from its text. -/
theorem Module.ofText?_render (m : Module) : Module.ofText? m.render = some m := by
  have hbody : ∀ f ∈ m.text.funcs, ∀ s ∈ f.body.head?, variableName? "local" s = none := by
    refine List.forall_mem_append.2 ⟨List.forall_mem_map.2 fun f _ => ?_,
      List.forall_mem_singleton.2 ?_⟩
    · exact variableName?_sexpsAll f.body
    · exact variableName?_sexpsAll m.startBody
  rw [ofText?, m.read_render]
  simp only [TextModule.ofSexp?_sexp m.text hbody, Option.bind_some, m.module?_text]

end Ember.Wat
