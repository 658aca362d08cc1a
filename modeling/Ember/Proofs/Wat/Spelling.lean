import Ember.Proofs.Wat.Validation
import Ember.Wat.Text

namespace Ember.Wat

mutual

/-- The trees of an instruction. -/
def Instr.sexps : Instr → List Sexp
  | .const v => [.atom "i64.const", .atom (toString v.toInt)]
  | .localGet x => [.atom "local.get", .atom x.name]
  | .localSet x => [.atom "local.set", .atom x.name]
  | .localTee x => [.atom "local.tee", .atom x.name]
  | .globalGet id => [.atom "global.get", .atom (globalName id)]
  | .globalSet id => [.atom "global.set", .atom (globalName id)]
  | .call f => [.atom "call", .atom f.name]
  | .num op => [.atom op.name]
  | .drop => [.atom "drop"]
  | .ret => [.atom "return"]
  | .br l => [.atom "br", .atom l.name]
  | .brIf l => [.atom "br_if", .atom l.name]
  | .block l body => [.list (.atom "block" :: .atom l.name :: Instr.sexpsAll body)]
  | .loop l body => [.list (.atom "loop" :: .atom l.name :: Instr.sexpsAll body)]
  | .cond body none => [.list [.atom "if", .list (.atom "then" :: Instr.sexpsAll body)]]
  | .cond body (some other) =>
    [.list [.atom "if", .list (.atom "then" :: Instr.sexpsAll body),
      .list (.atom "else" :: Instr.sexpsAll other)]]

def Instr.sexpsAll : List Instr → List Sexp
  | [] => []
  | i :: rest => i.sexps ++ Instr.sexpsAll rest

end

theorem Instr.sexpsAll_append (code more : List Instr) :
    Instr.sexpsAll (code ++ more) = Instr.sexpsAll code ++ Instr.sexpsAll more := by
  induction code with
  | nil => rfl
  | cons i code ih => simp [Instr.sexpsAll, ih]

/-- The parameters and the variables of a function, by their names. -/
def paramNames (n : Nat) : List String := (List.range n).map fun i => (Local.param i).name

def tempNames (n : Nat) : List String := (List.range n).map fun i => (Local.temp i).name

def Func.text (f : Func) : TextFunc :=
  ⟨(FuncRef.user f.id).name, none, paramNames f.params, tempNames f.locals, Instr.sexpsAll f.body⟩

/-- The functions that the host provides. -/
def hostImports : List TextImport :=
  [⟨"ember", "print_i64", "$print_i64", [.i64]⟩, ⟨"ember", "print_u64", "$print_u64", [.i64]⟩,
    ⟨"ember", "print_bool", "$print_bool", [.i64]⟩, ⟨"ember", "print_space", "$print_space", []⟩,
    ⟨"ember", "print_newline", "$print_newline", []⟩]

namespace Module

def startText (m : Module) : TextFunc :=
  ⟨"$_start", some "_start", [], tempNames m.startLocals, Instr.sexpsAll m.startBody⟩

def text (m : Module) : TextModule :=
  ⟨hostImports, m.globals.map globalName, m.funcs.map Func.text ++ [m.startText]⟩

end Module

section

variable {text word : String} {ts us : List Token} (indent : Nat)

/-- Blanks before a text are of no account. -/
theorem Lexes.line (h : Lexes (text ++ "\n") ts) : Lexes (line indent text) ts := by
  have hblanks : ∀ n, Lexes (String.ofList (List.replicate n ' ')) [] := by
    intro n
    unfold Lexes
    rw [String.toList_ofList]
    induction n with
    | zero => rfl
    | succ n ih =>
      have hstep : Reading.blank.step ' ' = some (.blank, []) := rfl
      simp [List.replicate_succ, Reading.run, hstep, ih]
  have hline := (hblanks (2 * indent)).append h
  rw [Wat.line, String.append_assoc]
  exact hline

/-- The characters of a text are enough. -/
theorem Lexes.of_chars (chars : List Char) (htext : text = String.ofList chars)
    (h : Reading.run .blank chars = some (.blank, ts)) : Lexes text ts := by
  rw [Lexes, htext, String.toList_ofList]
  exact h

/-- A line of complete tokens. -/
theorem Lexes.closedLine (h : Lexes text ts) : Lexes (Wat.line indent text) ts := by
  have hend : Lexes "\n" [] := .of_chars _ rfl rfl
  have hline := h.append hend
  rw [List.append_nil] at hline
  exact hline.line indent

/-- A line that ends with a word. -/
theorem Lexes.operand (ts : List Token) (h : Lexes text ts) (hword : IsWord word) :
    Lexes (Wat.line indent (text ++ word)) (ts ++ [.atom word]) :=
  Lexes.line indent (h.word hword (by decide) (by decide))

/-- A word on a line of its own. -/
theorem Lexes.wordLine (hword : IsWord word) : Lexes (Wat.line indent word) [.atom word] := by
  have hline := Lexes.operand indent [] (.of_chars [] rfl rfl) hword
  rwa [String.empty_append] at hline

/-- What is opened is closed on a line of its own. -/
theorem Lexes.close (h : Lexes text ts) :
    Lexes (text ++ Wat.line indent ")") (ts ++ [.closing]) :=
  h.append (Lexes.closedLine indent (.of_chars _ rfl rfl))

end

section

open TextModule

theorem isWordChar_of_isDigit {c : Char} (h : c.isDigit) : isWordChar c := by
  have hbounds : 48 ≤ c.toNat ∧ c.toNat ≤ 57 := by
    simpa [Char.isDigit, UInt32.le_iff_toNat_le] using h
  simp only [isWordChar, Bool.and_eq_true, decide_eq_true_eq, Bool.not_eq_true',
    List.contains_eq_mem, decide_eq_false_iff_not]
  simp only [List.mem_cons, List.not_mem_nil, or_false]
  omega

theorem toList_toString_nat (n : Nat) : (toString n).toList = Nat.toDigits 10 n := Nat.toList_repr

theorem isWord_toString_nat (n : Nat) : IsWord (toString n) := by
  refine ⟨by simp, ?_⟩
  rw [toList_toString_nat]
  exact fun c hc => isWordChar_of_isDigit (Nat.isDigit_of_mem_toDigits (by omega) (by omega) hc)

theorem IsWord.append {a b : String} (ha : IsWord a) (hb : IsWord b) : IsWord (a ++ b) := by
  rw [IsWord, String.toList_append]
  exact ⟨List.append_ne_nil_of_left_ne_nil ha.1 _, List.forall_mem_append.2 ⟨ha.2, hb.2⟩⟩

theorem isWord_toString_int (v : Int) : IsWord (toString v) := by
  cases v with
  | ofNat n => exact isWord_toString_nat n
  | negSucc n =>
    have htext : toString (Int.negSucc n) = "-" ++ toString (n + 1) := rfl
    rw [htext]
    exact .append (by decide) (isWord_toString_nat _)

/-- A name goes on with a number. -/
theorem TextModule.IsIdentifier.append {a b : String} (ha : IsIdentifier a) (hb : IsWord b) :
    IsIdentifier (a ++ b) := by
  obtain ⟨hword, hhead, hlength⟩ := ha
  refine ⟨hword.append hb, ?_, ?_⟩
  · rw [String.toList_append, List.head?_append, hhead]
    rfl
  · rw [String.toList_append, List.length_append]
    omega

theorem isIdentifier_local (x : Local) : IsIdentifier x.name := by
  cases x <;> exact IsIdentifier.append (by decide) (isWord_toString_nat _)

theorem isIdentifier_global (id : Int) : IsIdentifier (globalName id) :=
  .append (by decide) (isWord_toString_int id)

theorem isIdentifier_func (f : FuncRef) : IsIdentifier f.name := by
  cases f with
  | user id => exact .append (by decide) (isWord_toString_int id)
  | printI64 | printU64 | printBool | printSpace | printNewline => decide

theorem isIdentifier_label (l : Label) : IsIdentifier l.name := by
  cases l <;> exact IsIdentifier.append (by decide) (isWord_toString_nat _)

end

theorem toString_nat_injective {m n : Nat} (h : toString m = toString n) : m = n := by
  have hdigits : Nat.toDigits 10 m = Nat.toDigits 10 n := by
    rw [← toList_toString_nat, ← toList_toString_nat, h]
  have hvalue := congrArg (Nat.ofDigitChars 10 · 0) hdigits
  simpa only [Nat.ofDigitChars_ten_toDigits] using hvalue

theorem toString_int_injective {v w : Int} (h : toString v = toString w) : v = w := by
  have hdigit : ∀ (n : Nat) (text : String), toString n ≠ "-" ++ text := by
    intro n text heq
    have hmem : '-' ∈ (toString n).toList := by simp [heq]
    rw [toList_toString_nat] at hmem
    cases Nat.isDigit_of_mem_toDigits (by omega) (by omega) hmem
  cases v with
  | ofNat m =>
    cases w with
    | ofNat n => exact congrArg Int.ofNat (toString_nat_injective h)
    | negSucc n => exact absurd h (hdigit m _)
  | negSucc m =>
    cases w with
    | ofNat n => exact absurd h.symm (hdigit n _)
    | negSucc n =>
      have htext : "-" ++ toString (m + 1) = "-" ++ toString (n + 1) := h
      have hsucc := toString_nat_injective ((String.append_right_inj _).1 htext)
      rw [Nat.succ.inj hsucc]

theorem Local.name_injective {x y : Local} (h : x.name = y.name) : x = y := by
  have hchars := congrArg String.toList h
  cases x with
  | param i =>
    cases y with
    | param j => rw [toString_nat_injective ((String.append_right_inj _).1 h)]
    | temp j => simp [Local.name] at hchars
  | temp i =>
    cases y with
    | param j => simp [Local.name] at hchars
    | temp j => rw [toString_nat_injective ((String.append_right_inj _).1 h)]

theorem Label.name_injective {x y : Label} (h : x.name = y.name) : x = y := by
  have hchars := congrArg String.toList h
  cases x with
  | brk m =>
    cases y with
    | brk n => rw [toString_nat_injective ((String.append_right_inj _).1 h)]
    | cont n => simp [Label.name] at hchars
  | cont m =>
    cases y with
    | brk n => simp [Label.name] at hchars
    | cont n => rw [toString_nat_injective ((String.append_right_inj _).1 h)]

theorem globalName_injective {i j : Int} (h : globalName i = globalName j) : i = j :=
  toString_int_injective ((String.append_right_inj _).1 h)

/-- The functions of a program have names of their own. -/
theorem userName_injective {i j : Int} (h : (FuncRef.user i).name = (FuncRef.user j).name) :
    i = j :=
  toString_int_injective ((String.append_right_inj _).1 h)

theorem userName_ne (id : Int) {name : String} (h : name.toList[1]? ≠ some 'f') :
    (FuncRef.user id).name ≠ name := by
  rintro rfl
  exact h (by simp [FuncRef.name])

mutual

/-- The lines of an instruction are read to its trees. -/
theorem Instr.lexes_lines (indent : Nat) :
    (i : Instr) → Lexes (i.lines indent) (Sexp.tokensAll i.sexps)
  | .const v => .operand indent [.atom "i64.const"] (.of_chars _ rfl rfl) (isWord_toString_int _)
  | .localGet x => .operand indent [.atom "local.get"] (.of_chars _ rfl rfl) (isIdentifier_local x).1
  | .localSet x => .operand indent [.atom "local.set"] (.of_chars _ rfl rfl) (isIdentifier_local x).1
  | .localTee x => .operand indent [.atom "local.tee"] (.of_chars _ rfl rfl) (isIdentifier_local x).1
  | .globalGet id =>
    .operand indent [.atom "global.get"] (.of_chars _ rfl rfl) (isIdentifier_global id).1
  | .globalSet id =>
    .operand indent [.atom "global.set"] (.of_chars _ rfl rfl) (isIdentifier_global id).1
  | .call f => .operand indent [.atom "call"] (.of_chars _ rfl rfl) (isIdentifier_func f).1
  | .num op => .wordLine indent (by cases op <;> decide)
  | .drop | .ret => .wordLine indent (by decide)
  | .br l => .operand indent [.atom "br"] (.of_chars _ rfl rfl) (isIdentifier_label l).1
  | .brIf l => .operand indent [.atom "br_if"] (.of_chars _ rfl rfl) (isIdentifier_label l).1
  | .block l body => by
    have hopen : Lexes (line indent ("(block " ++ l.name)) [.opening, .atom "block", .atom l.name] :=
      .operand indent [.opening, .atom "block"] (.of_chars _ rfl rfl) (isIdentifier_label l).1
    have hall := (hopen.append (Instr.lexes_linesAll (indent + 1) body)).close indent
    simpa [Instr.lines, Instr.sexps, Sexp.tokens, Sexp.tokensAll] using hall
  | .loop l body => by
    have hopen : Lexes (line indent ("(loop " ++ l.name)) [.opening, .atom "loop", .atom l.name] :=
      .operand indent [.opening, .atom "loop"] (.of_chars _ rfl rfl) (isIdentifier_label l).1
    have hall := (hopen.append (Instr.lexes_linesAll (indent + 1) body)).close indent
    simpa [Instr.lines, Instr.sexps, Sexp.tokens, Sexp.tokensAll] using hall
  | .cond body none => by
    have hif : Lexes (line indent "(if") [.opening, .atom "if"] := .line indent (by decide)
    have hthen : Lexes (line (indent + 1) "(then") [.opening, .atom "then"] :=
      .line (indent + 1) (by decide)
    have hall := (((hif.append hthen).append (Instr.lexes_linesAll (indent + 2) body)).close
      (indent + 1)).close indent
    simpa [Instr.lines, Instr.sexps, Sexp.tokens, Sexp.tokensAll] using hall
  | .cond body (some other) => by
    have hif : Lexes (line indent "(if") [.opening, .atom "if"] := .line indent (by decide)
    have hthen : Lexes (line (indent + 1) "(then") [.opening, .atom "then"] :=
      .line (indent + 1) (by decide)
    have helse : Lexes (line (indent + 1) "(else") [.opening, .atom "else"] :=
      .line (indent + 1) (by decide)
    have hbody := ((hif.append hthen).append (Instr.lexes_linesAll (indent + 2) body)).close
      (indent + 1)
    have hall := (((hbody.append helse).append (Instr.lexes_linesAll (indent + 2) other)).close
      (indent + 1)).close indent
    simpa [Instr.lines, Instr.sexps, Sexp.tokens, Sexp.tokensAll] using hall

theorem Instr.lexes_linesAll (indent : Nat) :
    (code : List Instr) → Lexes (Instr.linesAll indent code) (Sexp.tokensAll (Instr.sexpsAll code))
  | [] => rfl
  | i :: code => by
    rw [Instr.linesAll, Instr.sexpsAll, Sexp.tokensAll_append]
    exact (Instr.lexes_lines indent i).append (Instr.lexes_linesAll indent code)

end

theorem Sexp.tokensAll_map {α : Type} (f : α → Sexp) (xs : List α) :
    tokensAll (xs.map f) = xs.flatMap fun x => (f x).tokens := by
  induction xs with
  | nil => rfl
  | cons x xs ih => simp [tokensAll, ih]

/-- Lines that each hold a tree. -/
theorem Lexes.joinTrees {α : Type} {spell : α → String} {tree : α → Sexp} {xs : List α}
    (h : ∀ x ∈ xs, Lexes (spell x) (tree x).tokens) :
    Lexes (String.join (xs.map spell)) (Sexp.tokensAll (xs.map tree)) := by
  rw [Sexp.tokensAll_map]
  exact Lexes.join h

/-- A function: the line of its header, which is left open, then its variables and its body. -/
theorem lexes_functionLines {header : String} {ts : List Token} (h : Lexes header ts)
    (locals : Nat) (body : List Instr) :
    Lexes (functionLines header locals body)
      (ts ++ Sexp.tokensAll ((tempNames locals).map (variableSexp "local")) ++
        Sexp.tokensAll (Instr.sexpsAll body) ++ [.closing]) := by
  have hlocal : ∀ i ∈ List.range locals,
      Lexes (line 2 ("(local " ++ (Local.temp i).name ++ " i64)"))
        (variableSexp "local" (Local.temp i).name).tokens := by
    intro i _
    have hopen : Lexes "(local " [.opening, .atom "local"] := .of_chars _ rfl rfl
    have hclose : Lexes " i64)" [.atom "i64", .closing] := .of_chars _ rfl rfl
    exact .closedLine 2 (hopen.word (isIdentifier_local _).1 (by decide) hclose)
  rw [tempNames, List.map_map]
  exact (((Lexes.closedLine 1 h).append (.joinTrees hlocal)).append
    (Instr.lexes_linesAll 2 body)).close 1

theorem EndsWord.append {text : String} (h : EndsWord text) (more : String) :
    EndsWord (text ++ more) := by
  unfold EndsWord at h ⊢
  rw [String.toList_append]
  cases hchars : text.toList with
  | nil =>
    rw [hchars] at h
    cases h
  | cons c rest =>
    rw [hchars] at h
    exact h

theorem lexes_func (f : Func) : Lexes f.lines f.text.sexp.tokens := by
  let spell := fun i => " (param " ++ (Local.param i).name ++ " i64)"
  have hparam : ∀ i ∈ List.range f.params,
      Lexes (spell i) (variableSexp "param" (Local.param i).name).tokens := by
    intro i _
    have hopen : Lexes " (param " [.opening, .atom "param"] := .of_chars _ rfl rfl
    have hclose : Lexes " i64)" [.atom "i64", .closing] := .of_chars _ rfl rfl
    exact hopen.word (isIdentifier_local _).1 (by decide) hclose
  have hresult : Lexes " (result i64)" [.opening, .atom "result", .atom "i64", .closing] :=
    .of_chars _ rfl rfl
  -- The name ends where the first parameter starts, or the result if there is none.
  have hend : EndsWord (String.join ((List.range f.params).map spell) ++ " (result i64)") := by
    cases List.range f.params with
    | nil =>
      rw [List.map_nil, String.join_nil]
      decide
    | cons i rest =>
      have hfirst : EndsWord " (param " := by decide
      simp only [List.map_cons, String.join_cons, String.append_assoc, spell]
      exact hfirst.append _
  have hopen : Lexes "(func " [.opening, .atom "func"] := .of_chars _ rfl rfl
  have hheader := hopen.word (isIdentifier_func (.user f.id)).1 hend
    ((Lexes.joinTrees hparam).append hresult)
  rw [← String.append_assoc] at hheader
  have hall := lexes_functionLines hheader f.locals f.body
  simpa [Func.lines, Func.text, TextFunc.sexp, paramNames, Sexp.tokens, Sexp.tokensAll,
    Sexp.tokensAll_append, Function.comp_def] using hall

theorem lexes_importLines :
    Lexes importLines (Sexp.tokensAll (hostImports.map TextImport.sexp)) := by
  have hi64 : Lexes (line 1 "(import \"ember\" \"print_i64\" (func $print_i64 (param i64)))")
      (TextImport.sexp ⟨"ember", "print_i64", "$print_i64", [.i64]⟩).tokens :=
    .closedLine 1 (.of_chars _ rfl rfl)
  have hu64 : Lexes (line 1 "(import \"ember\" \"print_u64\" (func $print_u64 (param i64)))")
      (TextImport.sexp ⟨"ember", "print_u64", "$print_u64", [.i64]⟩).tokens :=
    .closedLine 1 (.of_chars _ rfl rfl)
  have hbool : Lexes (line 1 "(import \"ember\" \"print_bool\" (func $print_bool (param i64)))")
      (TextImport.sexp ⟨"ember", "print_bool", "$print_bool", [.i64]⟩).tokens :=
    .closedLine 1 (.of_chars _ rfl rfl)
  have hspace : Lexes (line 1 "(import \"ember\" \"print_space\" (func $print_space))")
      (TextImport.sexp ⟨"ember", "print_space", "$print_space", []⟩).tokens :=
    .closedLine 1 (.of_chars _ rfl rfl)
  have hnewline : Lexes (line 1 "(import \"ember\" \"print_newline\" (func $print_newline))")
      (TextImport.sexp ⟨"ember", "print_newline", "$print_newline", []⟩).tokens :=
    .closedLine 1 (.of_chars _ rfl rfl)
  exact (((hi64.append hu64).append hbool).append hspace).append hnewline

theorem Module.lexes_render (m : Module) : Lexes m.render m.text.sexp.tokens := by
  have hmodule : Lexes (line 0 "(module") [.opening, .atom "module"] := .line 0 (by decide)
  have hglobal : ∀ id ∈ m.globals,
      Lexes (line 1 ("(global " ++ globalName id ++ " (mut i64) (i64.const 0))"))
        (globalSexp (globalName id)).tokens := by
    intro id _
    have hopen : Lexes "(global " [.opening, .atom "global"] := .of_chars _ rfl rfl
    have hclose : Lexes " (mut i64) (i64.const 0))" ((globalSexp "").tokens.drop 3) :=
      .of_chars _ rfl rfl
    exact .closedLine 1 (hopen.word (isIdentifier_global id).1 (by decide) hclose)
  have hfunc : ∀ f ∈ m.funcs, Lexes f.lines f.text.sexp.tokens := fun f _ => lexes_func f
  have hheader : Lexes "(func $_start (export \"_start\") (result i64)"
      (.opening :: Sexp.tokensAll [.atom "func", .atom "$_start",
        .list [.atom "export", .quoted "_start"], .list [.atom "result", .atom "i64"]]) :=
    .of_chars _ rfl rfl
  have hall := ((((hmodule.append lexes_importLines).append (.joinTrees hglobal)).append
    (.joinTrees hfunc)).append (lexes_functionLines hheader m.startLocals m.startBody)).close 0
  simpa [Module.render, Module.text, TextModule.sexp, Module.startText, TextFunc.sexp, Sexp.tokens,
    Sexp.tokensAll, Sexp.tokensAll_append, Function.comp_def] using hall

/-- The text of a module is read to one tree. -/
theorem Module.read_render (m : Module) : Sexp.read m.render = some [m.text.sexp] :=
  Sexp.read_of_lexes m.lexes_render

end Ember.Wat
