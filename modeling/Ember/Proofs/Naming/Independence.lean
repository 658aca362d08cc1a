import Ember.Proofs.Naming.Run

namespace Ember

namespace SymbolTable

theorem Keeps.lasting (first : SymbolTable) :
    Lasting fun t t' => first.Keeps t ∧ first.Keeps t' where
  add h name type := ⟨h.1.trans (keeps_add _ name type), h.2.trans (keeps_add _ name type)⟩
  retype h _ _ _ type := ⟨h.1.trans (keeps_retype _ _ type), h.2.trans (keeps_retype _ _ type)⟩

theorem Distinct.eq_of_sameName {t : SymbolTable} (h : t.Distinct) {a b : Int}
    (hsame : t.SameName t a b) : a = b := by
  obtain ⟨x, y, hx, hy, hname⟩ := hsame
  exact h hx hy hname

theorem Keeps.exists_has {t t' : SymbolTable} (h : t.Keeps t') {name : String} {type : Datatype}
    (hhas : t.Has name type) : ∃ type', t'.Has name type' := by
  obtain ⟨id, hid⟩ := hhas
  obtain ⟨⟨_, type'⟩, hget, rfl⟩ := h id _ hid
  exact ⟨type', id, hget⟩

end SymbolTable

theorem Token.alike_self (tokens : List Token) : List.Forall₂ (Token.Alike Eq) tokens tokens :=
  List.forall₂_same.2 fun _ _ => ⟨rfl, rfl⟩

theorem Diagnostic.Alike.eq_all {ds ds' : Report} (h : List.Forall₂ (Diagnostic.Alike Eq) ds ds') :
    ds = ds' := by
  induction h with
  | nil => rfl
  | @cons d d' _ _ hd _ ih =>
    obtain ⟨code, loc, args⟩ := d
    obtain ⟨code', loc', args'⟩ := d'
    obtain ⟨rfl, rfl, rfl⟩ := hd
    rw [ih]

namespace Program

variable {file : String} {source : Source} {table table' : SymbolTable}

theorem program_parse (file : String) (source : Source) (table : SymbolTable) :
    (Program.parse file source table).program =
      ⟨file, (Program.parse file source table).program.body⟩ := by
  unfold Program.parse TokenStream.parse TokenStream.parseWithin
  split <;> rfl

/-- One text in two tables: the same report, and programs that are alike. -/
theorem alike_parse {T : SymbolTable → SymbolTable → Prop} (hT : SymbolTable.Lasting T)
    (htable : T table table') :
    let parsed := Program.parse file source table
    let parsed' := Program.parse file source table'
    parsed.report = parsed'.report ∧
      Stmt.AlikeAll (parsed.table.SameName parsed'.table) Eq parsed.program.body
        parsed'.program.body ∧
      T parsed.table parsed'.table := by
  have htokens := Token.alike_self (TokenStream.ofSource file source).tokens
  obtain ⟨hbody, htables, ds, ds', hds, hreport, hreport'⟩ :=
    @TokenStream.alike_parseWithin T Eq Parser.maxDepth file file _ _ table table' hT htokens rfl
      htable
  refine ⟨?_, hbody, htables⟩
  rw [Program.parse, TokenStream.parse, hreport, Diagnostic.Alike.eq_all hds]
  exact hreport'.symm

/-- Names stay in the table, and stay distinct. -/
theorem table_parse (ht : table.Distinct) :
    (Program.parse file source table).table.Distinct ∧
      table.Keeps (Program.parse file source table).table := by
  obtain ⟨-, -, hdistinct, -⟩ :=
    @alike_parse file source table table _ SymbolTable.Distinct.lasting ⟨ht, ht⟩
  obtain ⟨-, -, hkeeps, -⟩ := @alike_parse file source table table _
    (SymbolTable.Keeps.lasting table) ⟨.refl table, .refl table⟩
  exact ⟨hdistinct, hkeeps⟩

/-- Parsed once more into the table it left, a text gives the same program and leaves the table as
it is: its names are there, and each ends with the type it ended with before. -/
theorem parse_again (ht : table.Distinct) :
    let parsed := Program.parse file source table
    (Program.parse file source parsed.table).program = parsed.program ∧
      (Program.parse file source parsed.table).table = parsed.table := by
  intro parsed
  obtain ⟨hdistinct, hkeeps⟩ := @table_parse file source table ht
  obtain ⟨hdistinct', hkeeps'⟩ := @table_parse file source parsed.table hdistinct
  have hstart : parsed.table.Repeats table parsed.table :=
    ⟨ht, hdistinct, fun _ _ hhas => hkeeps.exists_has hhas, fun _ _ hhas => .inr hhas⟩
  obtain ⟨-, hbody, hrepeats⟩ := @alike_parse file source table parsed.table _
    (SymbolTable.Repeats.lasting parsed.table) hstart
  have htable : (Program.parse file source parsed.table).table = parsed.table :=
    SymbolTable.eq_of_keeps hdistinct hdistinct' hkeeps'
      fun name type hhas => (hrepeats.types name type hhas).elim id id
  rw [htable] at hbody
  have hsame := (hbody.widen fun a b h => hdistinct.eq_of_sameName h).eq
  refine ⟨?_, htable⟩
  rw [program_parse file source parsed.table, ← hsame]
  exact (program_parse file source table).symm

/-- The table that a text is parsed into cannot be seen, whatever names it holds. The diagnostics
are equal and the programs are equal by name. Without a diagnostic the programs are printed alike,
and they run to the same output, trace and result. Parsed again into the same table, the text gives
the same program and the table keeps its entries. -/
theorem parse_independent (file : String) (source : Source) (ht : table.Built)
    (ht' : table'.Built) :
    let parsed := Program.parse file source table
    let parsed' := Program.parse file source table'
    parsed.report = parsed'.report ∧
      parsed.program.file = parsed'.program.file ∧
      Stmt.AlikeAll (parsed.table.SameName parsed'.table) Eq parsed.program.body
        parsed'.program.body ∧
      (parsed.report = [] →
        parsed.program.format parsed.table.nameOf = parsed'.program.format parsed'.table.nameOf ∧
        ∀ options : RunOptions,
          let ran := (Session.start parsed.table).run options parsed.program
          let ran' := (Session.start parsed'.table).run options parsed'.program
          ran.output = ran'.output ∧ ran.trace = ran'.trace ∧ ran.result = ran'.result) ∧
      (Program.parse file source parsed.table).program = parsed.program ∧
      (Program.parse file source parsed.table).table.entries = parsed.table.entries := by
  intro parsed parsed'
  obtain ⟨hreport, hbody, hdistinct, hdistinct'⟩ := @alike_parse file source table table' _
    SymbolTable.Distinct.lasting ⟨ht.distinct, ht'.distinct⟩
  obtain ⟨hprogram, htable⟩ := @parse_again file source table ht.distinct
  have hfile : parsed.program.file = parsed'.program.file := by
    rw [program_parse file source table, program_parse file source table']
  refine ⟨hreport, hfile, hbody, fun _ => ⟨?_, fun options => ?_⟩, hprogram, congrArg _ htable⟩
  · exact congrArg Fragment.renderAll (hbody.programFragments_eq fun a b h => h.nameOf_eq)
  · have hstarted := hbody.widen fun a b h =>
      h.mono (parsed.table.keeps_add "print" .empty) (parsed'.table.keeps_add "print" .empty)
    have hran := @Session.alike_run Eq (Session.start parsed.table) (Session.start parsed'.table)
      (Session.distinct_start hdistinct) (Session.distinct_start hdistinct') options
      parsed.program parsed'.program hstarted
    exact ⟨hran.output, hran.trace, hran.result.eq⟩

/-- A program that calls a function of its own and then a number, parsed into an empty table and
into one that holds its names in another order, one of them with another type. -/
theorem parse_independent_reordered :
    let source := Source.ofString
      "int8 x = 3; fn f(int8 n): int8 { return n + x; } print(f(4), f); x(1);"
    let filled := ((SymbolTable.empty.add "n" .empty).2.add "x" .void).2
    let table := filled.retype 1 .boolean
    let parsed := Program.parse "m" source table
    let parsed' := Program.parse "m" source .empty
    let ran := (Session.start parsed.table).run ⟨9, true, none⟩ parsed.program
    let ran' := (Session.start parsed'.table).run ⟨9, true, none⟩ parsed'.program
    parsed.report = [] ∧ parsed.report = parsed'.report ∧
      parsed.program.format parsed.table.nameOf = parsed'.program.format parsed'.table.nameOf ∧
      ran.output = ran'.output ∧ ran.result = ran'.result ∧ ran'.output = "7 <fn f>\n" ∧
      parsed.table.find? "x" ≠ parsed'.table.find? "x" := by
  intro source filled table parsed parsed' ran ran'
  have hentry : filled.get? 1 = some ⟨"x", .void⟩ := by decide +kernel
  have hset : filled.setType 1 .boolean = .ok table := by
    rw [SymbolTable.setType, SymbolTable.lookup, hentry]
    rfl
  have hbuilt : table.Built := .setType (.add (.add .empty "n" .empty) "x" .void) hset
  have hclean : parsed.report = [] := by decide +kernel
  obtain ⟨hreport, -, -, hseen, -⟩ := parse_independent "m" source hbuilt .empty
  obtain ⟨hformat, hran⟩ := hseen hclean
  obtain ⟨houtput, -, hresult⟩ := hran ⟨9, true, none⟩
  exact ⟨hclean, hreport, hformat, houtput, hresult, by decide +kernel⟩

end Program

end Ember
