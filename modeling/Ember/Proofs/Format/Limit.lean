import Ember.Proofs.Format.Fixpoint
import Ember.Proofs.Format.Nesting

namespace Ember

namespace Fragment

def isSugar : Fragment → Bool
  | lexeme l => l.isSugar
  | _ => false

@[simp] theorem isSugar_space : space.isSugar = false := rfl

@[simp] theorem isSugar_newline (indent : Nat) : (newline indent).isSugar = false := rfl

@[simp] theorem isSugar_name (n : String) : (name n).isSugar = false := rfl

@[simp] theorem isSugar_mark (m : Mark) : (mark m).isSugar = (Lexeme.mark m).isSugar := rfl

@[simp] theorem isSugar_keyword (k : Keyword) :
    (keyword k).isSugar = (Lexeme.keyword k).isSugar := rfl

@[simp] theorem isSugar_datatype (type : Datatype) : (datatype type).isSugar = false := by
  cases type <;> rfl

@[simp] theorem isSugar_literal (value : Literal) : (literal value).isSugar = false := by
  cases value with
  | int v =>
    simp only [literal]
    split <;> rfl
  | uint | foreign => rfl
  | bool b => cases b <;> rfl

@[simp] theorem isSugar_unaryOp (op : UnaryOp) : (Lexeme.mark op.mark).isSugar = false := by
  cases op <;> rfl

@[simp] theorem isSugar_binaryOp (op : BinaryOp) : (binaryOp op).isSugar = false := by
  cases op <;> rfl

/-- A row in which everything is written out. -/
def Plain (fs : List Fragment) : Prop := ∀ f ∈ fs, f.isSugar = false

@[simp] theorem plain_nil : Plain [] := List.forall_mem_nil _

@[simp] theorem plain_cons {f : Fragment} {fs : List Fragment} :
    Plain (f :: fs) ↔ f.isSugar = false ∧ Plain fs := List.forall_mem_cons

@[simp] theorem plain_append {fs fs' : List Fragment} :
    Plain (fs ++ fs') ↔ Plain fs ∧ Plain fs' := List.forall_mem_append

@[simp] theorem plain_parens {fs : List Fragment} : Plain (parens fs) ↔ Plain fs := by
  simp [parens, Lexeme.isSugar]

theorem Plain.parensIf {fs : List Fragment} (h : Plain fs) (needed : Bool) :
    Plain (parensIf needed fs) := by
  cases needed with
  | true => exact plain_parens.2 h
  | false => exact h

theorem Plain.commaSeparated {rows : List (List Fragment)} (h : ∀ row ∈ rows, Plain row) :
    Plain (commaSeparated rows) := by
  fun_induction Fragment.commaSeparated rows <;> simp_all [Lexeme.isSugar]

theorem Plain.braces {rows : List (List Fragment)} (h : ∀ row ∈ rows, Plain row) (indent : Nat) :
    Plain (braces indent rows) := by
  have hlines : Plain (rows.flatMap (newline (indent + 1) :: ·)) := by
    intro f hf
    obtain ⟨row, hrow, hmem⟩ := List.mem_flatMap.1 hf
    rcases List.mem_cons.1 hmem with rfl | hmem
    · rfl
    · exact h row hrow f hmem
  unfold Fragment.braces
  split <;> simp [hlines, Lexeme.isSugar]

theorem isSugar_of_isBlank {f : Fragment} (h : f.isBlank) : f.isSugar = false := by
  cases f with
  | space | newline => rfl
  | lexeme | verbatim => cases h

/-- The tokens of a row in which everything is written out. -/
theorem Plain.tokens {fs : List Fragment} (h : Plain fs) {ts : List Token}
    (hts : ts.map (·.lexeme) = lexemes fs) : Grammar.Plain ts := by
  intro t ht
  have hmem : t.lexeme ∈ lexemes fs := by
    rw [← hts]
    exact List.mem_map_of_mem ht
  obtain ⟨f, hf, hlexeme⟩ := List.mem_filterMap.1 hmem
  have hplain := h f hf
  cases f with
  | lexeme l =>
    cases hlexeme
    exact hplain
  | verbatim | space | newline => cases hlexeme

end Fragment

open Fragment

namespace Expr

mutual

theorem plain (name : Int → String) : (e : Expr) → Plain (e.fragments name)
  | .literal _ _ | .var _ _ => by simp [fragments]
  | .group inner _ => plain_parens.2 (plain name inner)
  | .assign target value _ => by
    simp [fragments, plain name target, plain name value, Lexeme.isSugar]
  | .unary op operand _ => by simp [fragments, (plain name operand).parensIf]
  | .binary op left right _ => by
    simp [fragments, (plain name left).parensIf, (plain name right).parensIf]
  | .call callee args _ => by
    simp [fragments, (plain name callee).parensIf, Plain.commaSeparated (plainAll name args)]

theorem plainAll (name : Int → String) :
    (es : List Expr) → ∀ row ∈ fragmentLists name es, Plain row
  | [] => by simp [fragmentLists]
  | e :: rest => List.forall_mem_cons.2 ⟨plain name e, plainAll name rest⟩

end

end Expr

namespace Stmt

mutual

theorem plain (name : Int → String) : (s : Stmt) → ∀ indent, Plain (s.fragments name indent)
  | .function id params result body _ _, indent => by
    have hparams : ∀ row ∈ params.map (Param.fragments name), Plain row :=
      List.forall_mem_map.2 fun p _ => by simp [Param.fragments]
    simp [fragments, Plain.commaSeparated hparams, Lexeme.isSugar,
      Plain.braces (plainAll name body (indent + 1))]
  | .var _ _ none _, _ | .returning none _, _ => by simp [fragments, Lexeme.isSugar]
  | .var _ _ (some e) _, _ | .returning (some e) _, _ | .expr e _, _ => by
    simp [fragments, e.plain, Lexeme.isSugar]
  | .block body _, indent => Plain.braces (plainAll name body (indent + 1)) indent
  | .conditional cond body none _, indent => by
    obtain ⟨f, i, hf, hbodyRow⟩ := exists_hanging body indent (fun i => body.fragments name i)
    simp [fragments, hbodyRow, isSugar_of_isBlank hf, cond.plain, plain name body i,
      Lexeme.isSugar]
  | .conditional cond body (some other) _, indent => by
    obtain ⟨f, i, hf, hbodyRow⟩ := exists_hanging body indent (fun i => body.fragments name i)
    obtain ⟨f', hf', helseRow⟩ := exists_beforeAlternative body indent
    obtain ⟨f'', j, hf'', hotherRow⟩ :=
      exists_alternative other indent (fun i => other.fragments name i)
    simp [fragments, hbodyRow, helseRow, hotherRow, isSugar_of_isBlank hf,
      isSugar_of_isBlank hf', isSugar_of_isBlank hf'', cond.plain, plain name body i,
      plain name other j, Lexeme.isSugar]
  | .loop cond body _, indent => by
    obtain ⟨f, i, hf, hbodyRow⟩ := exists_hanging body indent (fun i => body.fragments name i)
    simp [fragments, hbodyRow, isSugar_of_isBlank hf, cond.plain, plain name body i,
      Lexeme.isSugar]

theorem plainAll (name : Int → String) :
    (ss : List Stmt) → ∀ indent, ∀ row ∈ fragmentLists name ss indent, Plain row
  | [], _ => by simp [fragmentLists]
  | s :: rest, indent => List.forall_mem_cons.2 ⟨plain name s indent, plainAll name rest indent⟩

end

theorem plain_program (name : Int → String) (body : List Stmt) :
    Plain (programFragments name body) := by
  fun_induction programFragments name body with
  | case1 => exact plain_nil
  | case2 s => simp [plain name s]
  | case3 s rest _ ih =>
    rw [plain_append, plain_append]
    refine ⟨⟨plain name s 0, ?_⟩, ih⟩
    split <;> simp

end Stmt

open Grammar Ember.Parser

namespace TokenStream

/-- Plain tokens of a derivation are accepted exactly if the derivation nests no deeper than the
room allows. -/
theorem parse_iff_depth_le {stream : TokenStream} (file : String) (table : SymbolTable)
    (hreal : (State.start stream table).Real) (m : Module) (htokens : m.tokens = stream.tokens)
    (helse : m.NearestElse) (hrange : ∀ t ∈ stream.tokens, t.InRange)
    (hlex : stream.report = []) (hplain : Grammar.Plain stream.tokens) :
    (stream.parse file table).report = [] ↔ m.depth ≤ maxDepth := by
  constructor
  · intro hclean
    obtain ⟨m', htokens', -, hdepth, -, hbuild⟩ := derivation_of_clean hreal hclean
    rcases parse_of_derivation file table m htokens helse hrange hlex with ⟨d, hd, -⟩ | hparse
    · rw [hclean] at hd
      cases hd
    · -- Both derivations build the tree that was read, and it shows how deep they nest.
      rw [parse] at hparse
      rw [hparse] at hbuild
      have hbody : (m'.build table).1 = (m.build table).1 := congrArg Prod.fst hbuild
      rw [m'.nestingAll_build (htokens' ▸ hplain) table, hbody,
        ← m.nestingAll_build (htokens ▸ hplain) table] at hdepth
      exact hdepth
  · intro hdepth
    rw [parse, parseWithin_of_derivation file table m htokens helse hdepth hrange hlex]

end TokenStream

namespace Program

variable {file : String} {source : Source} {table : SymbolTable}

/-- The canonical form of an accepted program is accepted exactly if it nests no deeper than the
parser's limit. -/
theorem report_format_eq_nil_iff (hclean : (Program.parse file source table).report = [])
    (file' : String) (table' : SymbolTable) :
    let p := Program.parse file source table
    let q := Program.parse file' (Source.ofString (p.program.format p.table.nameOf)) table'
    q.report = [] ↔ Stmt.nestingAll (Stmt.bracketedAll p.program.body) ≤ maxDepth := by
  intro p q
  obtain ⟨hlex, hrange, hlexemes, m, htokens, helse, hgives⟩ :=
    exists_derivation_format hclean file'
  have hplain := (Stmt.plain_program p.table.nameOf p.program.body).tokens hlexemes
  have hdepth : m.depth = Stmt.nestingAll (Stmt.bracketedAll p.program.body) := by
    rw [m.nestingAll_build (htokens ▸ hplain) table']
    exact (hgives table' (.refl _)).nestingAll_eq
  rw [← hdepth]
  exact TokenStream.parse_iff_depth_le file' table' (TokenStream.real_start table') m htokens
    helse hrange hlex hplain

/-- Formatting keeps a program acceptable, unless its canonical form nests deeper than the
parser's limit: then, and only then, the parser rejects that form, and says why. -/
theorem format_accepted (hclean : (Program.parse file source table).report = [])
    (file' : String) (table' : SymbolTable) :
    let p := Program.parse file source table
    let q := Program.parse file' (Source.ofString (p.program.format p.table.nameOf)) table'
    (Stmt.nestingAll (Stmt.bracketedAll p.program.body) ≤ maxDepth → q.report = []) ∧
      (maxDepth < Stmt.nestingAll (Stmt.bracketedAll p.program.body) →
        ∃ d ∈ q.report, d.code = .nestingTooDeep) := by
  intro p q
  have hiff := report_format_eq_nil_iff hclean file' table'
  refine ⟨hiff.2, fun hdeep => ?_⟩
  obtain ⟨hlex, hrange, -, m, htokens, helse, -⟩ := exists_derivation_format hclean file'
  rcases TokenStream.parse_of_derivation file' table' m htokens helse hrange hlex with
    hreport | hparse
  · exact hreport
  · exact absurd (hiff.1 (congrArg Parsed.report hparse)) (Nat.not_le.2 hdeep)

/-- Two assignments written out in each other. -/
theorem format_accepted_assignments :
    let p := Program.parse "m" (Source.ofString "x += y -= 1;") .empty
    let q := Program.parse "m" (Source.ofString (p.program.format p.table.nameOf)) .empty
    p.report = [] ∧ Stmt.nestingAll (Stmt.bracketedAll p.program.body) = 3 ∧ q.report = [] := by
  have hclean :
      (Program.parse "m" (Source.ofString "x += y -= 1;") .empty).report = [] := by
    decide +kernel
  exact ⟨hclean, by decide +kernel, (format_accepted hclean "m" .empty).1 (by decide +kernel)⟩

/-- A chain of compound assignments nests two deep, and its canonical form one deeper for each
of them: after 256 of them it is rejected. -/
theorem format_rejected_chain :
    let source := (List.replicate 256 (Source.ofString "x+=")).flatten ++ Source.ofString "1;"
    let p := Program.parse "m" source .empty
    let q := Program.parse "m" (Source.ofString (p.program.format p.table.nameOf)) .empty
    p.report = [] ∧ q.report ≠ [] := by
  obtain ⟨hclean, hdeep⟩ : (Program.parse "m"
        ((List.replicate 256 (Source.ofString "x+=")).flatten ++ Source.ofString "1;")
        .empty).report = [] ∧
      maxDepth < Stmt.nestingAll (Stmt.bracketedAll (Program.parse "m"
        ((List.replicate 256 (Source.ofString "x+=")).flatten ++ Source.ofString "1;")
        .empty).program.body) := by
    decide +kernel
  refine ⟨hclean, fun hreport => ?_⟩
  exact Nat.not_le.2 hdeep ((report_format_eq_nil_iff hclean "m" .empty).1 hreport)

end Program

end Ember
