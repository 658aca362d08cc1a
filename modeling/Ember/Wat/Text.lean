import Ember.Wat.Instr

namespace Ember.Wat

/-- A line, each level of depth two blanks. -/
def line (indent : Nat) (text : String) : String :=
  String.ofList (List.replicate (2 * indent) ' ') ++ text ++ "\n"

def globalName (id : Int) : String := "$g" ++ toString id

mutual

/-- The lines of an instruction. What is nested stands between parentheses, one level
deeper. -/
def Instr.lines (indent : Nat) : Instr → String
  | .const v => line indent ("i64.const " ++ toString v.toInt)
  | .localGet x => line indent ("local.get " ++ x.name)
  | .localSet x => line indent ("local.set " ++ x.name)
  | .localTee x => line indent ("local.tee " ++ x.name)
  | .globalGet id => line indent ("global.get " ++ globalName id)
  | .globalSet id => line indent ("global.set " ++ globalName id)
  | .call f => line indent ("call " ++ f.name)
  | .num op => line indent op.name
  | .drop => line indent "drop"
  | .ret => line indent "return"
  | .br l => line indent ("br " ++ l.name)
  | .brIf l => line indent ("br_if " ++ l.name)
  | .block l body =>
    line indent ("(block " ++ l.name) ++ Instr.linesAll (indent + 1) body ++ line indent ")"
  | .loop l body =>
    line indent ("(loop " ++ l.name) ++ Instr.linesAll (indent + 1) body ++ line indent ")"
  | .cond body none =>
    line indent "(if" ++
      line (indent + 1) "(then" ++ Instr.linesAll (indent + 2) body ++ line (indent + 1) ")" ++
      line indent ")"
  | .cond body (some other) =>
    line indent "(if" ++
      line (indent + 1) "(then" ++ Instr.linesAll (indent + 2) body ++ line (indent + 1) ")" ++
      line (indent + 1) "(else" ++ Instr.linesAll (indent + 2) other ++ line (indent + 1) ")" ++
      line indent ")"

def Instr.linesAll (indent : Nat) : List Instr → String
  | [] => ""
  | i :: rest => i.lines indent ++ Instr.linesAll indent rest

end

/-- A function: its header, its variables and its body. -/
def functionLines (header : String) (locals : Nat) (body : List Instr) : String :=
  line 1 header ++
    String.join ((List.range locals).map fun i =>
      line 2 ("(local " ++ (Local.temp i).name ++ " i64)")) ++
    Instr.linesAll 2 body ++ line 1 ")"

def Func.lines (f : Func) : String :=
  let params := String.join ((List.range f.params).map fun i =>
    " (param " ++ (Local.param i).name ++ " i64)")
  functionLines ("(func " ++ (FuncRef.user f.id).name ++ params ++ " (result i64)") f.locals f.body

/-- The functions that the host provides. -/
def importLines : String :=
  line 1 "(import \"ember\" \"print_i64\" (func $print_i64 (param i64)))" ++
    line 1 "(import \"ember\" \"print_u64\" (func $print_u64 (param i64)))" ++
    line 1 "(import \"ember\" \"print_bool\" (func $print_bool (param i64)))" ++
    line 1 "(import \"ember\" \"print_space\" (func $print_space))" ++
    line 1 "(import \"ember\" \"print_newline\" (func $print_newline))"

/-- The text of a module. -/
def Module.render (m : Module) : String :=
  line 0 "(module" ++ importLines ++
    String.join (m.globals.map fun id =>
      line 1 ("(global " ++ globalName id ++ " (mut i64) (i64.const 0))")) ++
    String.join (m.funcs.map Func.lines) ++
    functionLines "(func $_start (export \"_start\") (result i64)" m.startLocals m.startBody ++
    line 0 ")"

end Ember.Wat
