import Ember.Fold
import Ember.Proofs.Format.Shape
import Ember.Proofs.Lexer.Readable
import Ember.Proofs.Recovery.Derivation

namespace Ember

open Grammar

/-- Every statement that is read can stand in a source text, also where other parts of the text
cannot be read. -/
theorem Program.printable_parse (file : String) (source : Source) (table : SymbolTable) :
    ∀ s ∈ (Program.parse file source table).program.body,
      s.Printable (Program.parse file source table).table.nameOf := by
  obtain ⟨m, hsublist, hrange, hnearest, hsettled⟩ :=
    (TokenStream.ofSource file source).exists_derivation Parser.maxDepth file table
  obtain ⟨hbuild, hkeeps⟩ := hsettled.keeps
  have hwritten : Written m.tokens := fun t ht =>
    ⟨TokenStream.readable_of_mem (hsublist.subset ht), hrange t ht⟩
  have hprintable := m.printable_build _ hkeeps hwritten hnearest
  rwa [hbuild] at hprintable

/-- A constant as it is written: without a sign, and unsigned only where it has to be. -/
def Literal.Unsigned : Literal → Prop
  | .int v => 0 ≤ v.toInt
  | .uint v => 9223372036854775808 ≤ v.toNat
  | .bool _ => True
  | .foreign _ _ _ => False

theorem Literal.Printable.unsigned {l : Literal} (h : l.Printable) : l.Unsigned := by
  obtain ⟨b, rfl⟩ | ⟨n, hn, rfl⟩ := h
  · trivial
  · unfold literalOf
    split
    · rename_i hsigned
      simp only [Literal.Unsigned, Int64.toInt_ofNat_of_lt hsigned]
      omega
    · simp only [Literal.Unsigned, UInt64.toNat_ofNat_of_lt' hn]
      omega

/-- Constants as they are written, whatever the names, operators and types. -/
def Leaves.unsigned : Leaves where
  literal := Literal.Unsigned
  id _ := True
  operator _ := True
  type _ := True

theorem Leaves.printable_le_unsigned (name : Int → String) :
    (Leaves.printable name).Le .unsigned where
  literal _ := Literal.Printable.unsigned
  id _ _ := trivial
  operator _ _ := trivial
  type _ _ := trivial

/-- No function is declared in a block, a body that is one statement is no declaration, no operand
needs parentheses that it does not have, no conditional before an `else` is left open, and constants
have no sign. -/
def Stmt.Shaped (s : Stmt) : Prop := s.Formed .unsigned

/-- The statements of a program, of which some may be functions. -/
def Program.Shaped (p : Program) : Prop := ∀ s ∈ p.body, s.Shaped

/-- Whatever the text, and whatever errors are in it. -/
theorem Program.shaped_parse_program (file : String) (source : Source) (table : SymbolTable) :
    (Program.parse file source table).program.Shaped :=
  fun s hs => (printable_parse file source table s hs).mono (Leaves.printable_le_unsigned _)

mutual

/-- No function is declared in the statement. -/
def Stmt.Flat : Stmt → Prop
  | .function _ _ _ _ _ _ => False
  | .block body _ => Stmt.FlatAll body
  | .conditional _ body none _ => body.Flat
  | .conditional _ body (some other) _ => body.Flat ∧ other.Flat
  | .loop _ body _ => body.Flat
  | .var _ _ _ _ | .returning _ _ | .expr _ _ => True

def Stmt.FlatAll : List Stmt → Prop
  | [] => True
  | s :: rest => s.Flat ∧ Stmt.FlatAll rest

end

/-- No function is declared in the parts of the statement, which may be a function itself. -/
def Stmt.FlatInside : Stmt → Prop
  | .function _ _ _ body _ _ => Stmt.FlatAll body
  | s => s.Flat

/-- Functions are declared in the program itself only. -/
def Program.Flat (p : Program) : Prop := ∀ s ∈ p.body, s.FlatInside

variable {leaves : Leaves}

mutual

theorem Stmt.Formed.flat : (s : Stmt) → s.isFunction = false → s.Formed leaves → s.Flat
  | .block body _ => fun _ h => Stmt.FormedAll.flat body h
  | .conditional _ body none _ => fun _ h =>
    Stmt.Formed.flat body (isFunction_of_isDeclaration h.2.1) h.2.2
  | .conditional _ body (some other) _ => fun _ h =>
    ⟨Stmt.Formed.flat body (isFunction_of_isDeclaration h.2.1.1) h.2.1.2,
      Stmt.Formed.flat other (isFunction_of_isDeclaration h.2.2.2.1) h.2.2.2.2⟩
  | .loop _ body _ => fun _ h => Stmt.Formed.flat body (isFunction_of_isDeclaration h.2.1) h.2.2
  | .var _ _ _ _ | .returning _ _ | .expr _ _ => fun _ _ => trivial
  | .function _ _ _ _ _ _ => fun h => by cases h

theorem Stmt.FormedAll.flat : (ss : List Stmt) → Stmt.FormedAll leaves ss → Stmt.FlatAll ss
  | [] => fun _ => trivial
  | s :: rest => fun h => ⟨Stmt.Formed.flat s h.1 h.2.1, Stmt.FormedAll.flat rest h.2.2⟩

end

theorem Program.Shaped.flat {p : Program} (h : p.Shaped) : p.Flat := by
  intro s hs
  have hshaped := h s hs
  cases s with
  | function => exact Stmt.FormedAll.flat _ hshaped.2.2.2
  | var | block | conditional | loop | returning | expr => exact Stmt.Formed.flat _ rfl hshaped

mutual

theorem Stmt.Flat.fold : (s : Stmt) → s.Flat → s.fold.Flat
  | .block body _ => fun h => Stmt.FlatAll.fold body h
  | .conditional _ body none _ => fun h => Stmt.Flat.fold body h
  | .conditional _ body (some other) _ => fun h =>
    ⟨Stmt.Flat.fold body h.1, Stmt.Flat.fold other h.2⟩
  | .loop _ body _ => fun h => Stmt.Flat.fold body h
  | .var _ _ _ _ | .returning _ _ | .expr _ _ => fun _ => trivial
  | .function _ _ _ _ _ _ => fun h => h.elim

theorem Stmt.FlatAll.fold : (ss : List Stmt) → Stmt.FlatAll ss → Stmt.FlatAll (Stmt.foldAll ss)
  | [] => fun _ => trivial
  | s :: rest => fun h => ⟨Stmt.Flat.fold s h.1, Stmt.FlatAll.fold rest h.2⟩

end

theorem Stmt.FlatInside.fold {s : Stmt} (h : s.FlatInside) : s.fold.FlatInside := by
  cases s with
  | function => exact Stmt.FlatAll.fold _ h
  | conditional cond body other loc => cases other <;> exact Stmt.Flat.fold _ h
  | var | block | loop | returning | expr => exact Stmt.Flat.fold _ h

end Ember
