import Ember.Proofs.Wat.Acceptance

namespace Ember

namespace Expr

mutual

/-- What an expression calls, wherever in it. -/
def callees : Expr → List Expr
  | .literal _ _ | .var _ _ => []
  | .group inner _ => inner.callees
  | .assign target value _ => target.callees ++ value.callees
  | .unary _ operand _ => operand.callees
  | .binary _ left right _ => left.callees ++ right.callees
  | .call callee args _ => callee :: (callee.callees ++ calleesAll args)

def calleesAll : List Expr → List Expr
  | [] => []
  | e :: rest => e.callees ++ calleesAll rest

end

def isPrint (table : SymbolTable) (callee : Expr) : Bool :=
  callee.named?.any fun id => table.nameOf id == "print"

/-- The callee is a function of the program that has no result. -/
def isVoid (body : List Stmt) (callee : Expr) : Bool :=
  callee.named?.any fun id => body.any fun
    | .function id' _ result _ _ _ => id' == id && result == .void
    | _ => false

/-- A call gives a value. -/
def answers (table : SymbolTable) (body : List Stmt) (callee : Expr) : Bool :=
  !callee.isPrint table && !callee.isVoid body

/-- Everything that is called in the expression gives a value. -/
def yields (table : SymbolTable) (body : List Stmt) (e : Expr) : Bool :=
  e.callees.all (answers table body)

/-- The expression can be a statement: what gives no value may be called by all of it. What is
printed calls nothing. -/
def standsAlone (table : SymbolTable) (body : List Stmt) (e : Expr) : Bool :=
  match e.unparen with
  | .call callee args _ =>
    (callee.callees ++ calleesAll args).all (answers table body) &&
      (!callee.isPrint table || (calleesAll args).isEmpty)
  | inner => inner.yields table body

end Expr

mutual

/-- The statement does the same after it is lowered. A function with a result returns one. -/
def Stmt.isSupported (table : SymbolTable) (body : List Stmt) (role : Wat.Role) : Stmt → Bool
  | .function _ params result stmts _ _ =>
    params.all (·.type != .void) && Stmt.areSupported table body (.function result) stmts
  | .var _ type init _ => type != .void && init.all (·.yields table body)
  | .block stmts _ => Stmt.areSupported table body role stmts
  | .conditional cond stmt none _ => cond.yields table body && stmt.isSupported table body role
  | .conditional cond stmt (some other) _ =>
    cond.yields table body && stmt.isSupported table body role &&
      other.isSupported table body role
  | .loop cond stmt _ => cond.yields table body && stmt.isSupported table body role
  | .returning none _ => role == .start || role == .function .void
  | .returning (some e) _ => e.yields table body
  | .expr e _ => e.standsAlone table body

def Stmt.areSupported (table : SymbolTable) (body : List Stmt) (role : Wat.Role) :
    List Stmt → Bool
  | [] => true
  | s :: rest => s.isSupported table body role && Stmt.areSupported table body role rest

end

theorem Stmt.areSupported_iff {table : SymbolTable} {body : List Stmt} {role : Wat.Role}
    {ss : List Stmt} :
    Stmt.areSupported table body role ss ↔ ∀ s ∈ ss, s.isSupported table body role := by
  induction ss with
  | nil => simp [areSupported]
  | cons s rest ih => simp [areSupported, ih]

/-- A program that does the same after it is lowered. -/
structure Program.Supported (p : Program) (table : SymbolTable) : Prop where
  nodup : (p.functionIds ++ p.variableIds).Nodup
  noPrint : ∀ id ∈ p.functionIds ++ p.variableIds, table.nameOf id ≠ "print"
  stmts : ∀ s ∈ p.body, s.isSupported table p.body .start

/-- The id of `print` is that of no other name. -/
theorem Wat.ne_printId {table : SymbolTable} {id : Int} (hname : IsName (table.nameOf id))
    (hprint : table.nameOf id ≠ "print") : id ≠ printId table := by
  rintro rfl
  unfold printId SymbolTable.add at hname hprint
  split at hname
  · rename_i i hfind
    obtain ⟨hlt, hentry, _⟩ := Array.findIdx?_eq_some_iff_getElem.1 hfind
    have hnonneg : ¬(i : Int) < 0 := by omega
    refine hprint ?_
    simpa [hfind, SymbolTable.nameOf, SymbolTable.get?, hlt, hnonneg] using hentry
  · have hnone : table.nameOf (table.size : Int) = "" := by
      simp [SymbolTable.nameOf, SymbolTable.get?, SymbolTable.size]
    rw [hnone] at hname
    exact absurd hname (by unfold IsName; decide)

namespace Wat

/-- A program that is lowered, in which every name is declared once outside of blocks and functions,
and none is declared as `print`. -/
structure Unambiguous (declared : Declared) (body : List Stmt) (module : Module) : Prop
    extends Admissible declared body module where
  nodup : ((globalsIn body).map (·.1)).Nodup
  printId_notMem : printId declared.table ∉ (globalsIn body).map (·.1)
  function_ne : ∀ f ∈ declared.functions, f.id ≠ printId declared.table

/-- Every function of the program does the same after it is lowered. -/
def FunctionsSupported (table : SymbolTable) (body : List Stmt) : Prop :=
  ∀ s ∈ body, (declaredFunction? s).isSome → s.isSupported table body .start

/-- A program that is lowered and does the same after that. -/
structure Translated (declared : Declared) (body : List Stmt) (module : Module) : Prop
    extends Unambiguous declared body module where
  supported : ∀ s ∈ body, s.isSupported declared.table body .start

section

variable {declared : Declared} {body : List Stmt} {module : Module}

theorem Translated.functions (h : Translated declared body module) :
    FunctionsSupported declared.table body := fun s hs _ => h.supported s hs

theorem FunctionsSupported.of_implements {table : SymbolTable} (h : FunctionsSupported table body)
    {g : Closure} {f : FunctionDecl} (himp : Implements body g f) :
    (∀ p ∈ f.params, p.type ≠ .void) ∧
      ∀ s ∈ g.body, s.isSupported table body (.function f.result) := by
  obtain ⟨_, _, hmem⟩ := himp.mem
  have hsupported := h _ hmem rfl
  simp only [Stmt.isSupported, Bool.and_eq_true, List.all_eq_true, bne_iff_ne,
    Stmt.areSupported_iff] at hsupported
  exact hsupported

/-- A variable of the program has one type. -/
theorem Unambiguous.type_unique (h : Unambiguous declared body module) {id : Int}
    {type type' : Datatype} (hmem : (id, type) ∈ globalsIn body)
    (hmem' : (id, type') ∈ globalsIn body) : type = type' :=
  congrArg Prod.snd (List.inj_on_of_nodup_map h.nodup hmem hmem' rfl)

/-- A function that is called for its value has one. -/
theorem Unambiguous.result_ne_void (h : Unambiguous declared body module) {f : FunctionDecl}
    (hf : f ∈ declared.functions) {callee : Expr} (hcallee : callee.named? = some f.id)
    (hanswers : callee.answers declared.table body) : f.result ≠ .void := by
  intro hvoid
  rw [h.functions_eq] at hf
  obtain ⟨stmts, bodyLoc, loc, hmem, _⟩ := mem_of_mem_declaredFunction? hf
  have hisVoid : callee.isVoid body := by
    rw [Expr.isVoid, hcallee, Option.any_some, List.any_eq_true]
    exact ⟨_, hmem, by simpa using hvoid⟩
  simp [Expr.answers, hisVoid] at hanswers

end

/-- What is asked of the names of a program makes its lowering unambiguous. -/
theorem exists_collected_unambiguous {file : String} {source : Source} {table : SymbolTable}
    (hclean : (Program.parse file source table).report = [])
    (hnodup : ((Program.parse file source table).program.functionIds ++
      (Program.parse file source table).program.variableIds).Nodup)
    (hnoPrint : ∀ id ∈ (Program.parse file source table).program.functionIds ++
      (Program.parse file source table).program.variableIds,
      (Program.parse file source table).table.nameOf id ≠ "print") {module : Module}
    (hmodule : lowerProgram (Program.parse file source table).table
      (Program.parse file source table).program.fold = .ok module) :
    let parsed := Program.parse file source table
    ∃ functions, collectFunctions parsed.table [] parsed.program.fold.body = .ok functions ∧
      Unambiguous ⟨parsed.table, functions, collectGlobals [] parsed.program.fold.body⟩
        parsed.program.body module := by
  obtain ⟨_, hvars, hdistinct⟩ := List.nodup_append.1 hnodup
  obtain ⟨functions, hfunctions, hprogram⟩ := exists_collected_admissible hclean
    (fun id hid hid' => hdistinct id hid id hid' rfl)
    (fun id hid => hnoPrint id (List.mem_append_right _ hid)) hmodule
  refine ⟨functions, hfunctions, hprogram, ?_, fun hmem => ?_, fun f hf => ?_⟩
  · rw [map_fst_globalsIn]
    exact hvars
  · obtain ⟨x, hx, hid⟩ := List.mem_map.1 hmem
    obtain ⟨s, hs, hdeclares⟩ := List.mem_filterMap.1 hx
    cases s with
    | var id type init loc =>
      cases hdeclares
      refine ne_printId (hprogram.printable _ hs).1 ?_ hid
      exact hnoPrint _ (List.mem_append_right _ (List.mem_filterMap.2 ⟨_, hs, rfl⟩))
    | function | block | conditional | loop | returning | expr => cases hdeclares
  · rw [hprogram.functions_eq] at hf
    obtain ⟨stmts, bodyLoc, loc, hmem, _⟩ := mem_of_mem_declaredFunction? hf
    refine ne_printId (hprogram.printable _ hmem).1 ?_
    exact hnoPrint _ (List.mem_append_left _ (mem_functionIds_of_mem hf))

theorem translated_of_lowerProgram {file : String} {source : Source} {table : SymbolTable}
    (hclean : (Program.parse file source table).report = [])
    (hsupported : (Program.parse file source table).program.Supported
      (Program.parse file source table).table) {module : Module}
    (hmodule : lowerProgram (Program.parse file source table).table
      (Program.parse file source table).program.fold = .ok module) :
    ∃ declared, declared.table = (Program.parse file source table).table ∧
      Translated declared (Program.parse file source table).program.body module := by
  obtain ⟨_, _, hprogram⟩ :=
    exists_collected_unambiguous hclean hsupported.nodup hsupported.noPrint hmodule
  exact ⟨_, rfl, hprogram, hsupported.stmts⟩

end Wat

end Ember
