import Ember.Fold
import Ember.Proofs.Format.RoundTrip

namespace Ember

/-- A constant that a source text can hold. -/
def Literal.IsNative : Literal → Prop
  | .int _ | .uint _ | .bool _ => True
  | .foreign _ _ _ => False

mutual

/-- Every constant of the expression is one that a source text can hold. -/
def Expr.Native : Expr → Prop
  | .literal value _ => value.IsNative
  | .var _ _ => True
  | .group inner _ => inner.Native
  | .assign target value _ => target.Native ∧ value.Native
  | .call callee args _ => callee.Native ∧ Expr.NativeAll args
  | .unary _ operand _ => operand.Native
  | .binary _ left right _ => left.Native ∧ right.Native

def Expr.NativeAll : List Expr → Prop
  | [] => True
  | e :: rest => e.Native ∧ Expr.NativeAll rest

end

/-- An expression that may be absent. -/
def Expr.NativeOption (e : Option Expr) : Prop := ∀ e' ∈ e, e'.Native

mutual

def Stmt.Native : Stmt → Prop
  | .function _ _ _ body _ _ => Stmt.NativeAll body
  | .var _ _ init _ => Expr.NativeOption init
  | .block body _ => Stmt.NativeAll body
  | .conditional cond body none _ => cond.Native ∧ body.Native
  | .conditional cond body (some other) _ => cond.Native ∧ body.Native ∧ other.Native
  | .loop cond body _ => cond.Native ∧ body.Native
  | .returning value _ => Expr.NativeOption value
  | .expr e _ => e.Native

def Stmt.NativeAll : List Stmt → Prop
  | [] => True
  | s :: rest => s.Native ∧ Stmt.NativeAll rest

end

theorem Literal.Printable.isNative {l : Literal} (h : l.Printable) : l.IsNative := by
  obtain ⟨b, rfl⟩ | ⟨n, _, rfl⟩ := h
  · trivial
  · unfold Grammar.literalOf
    split <;> trivial

variable {name : Int → String}

mutual

theorem Expr.Formed.native : (e : Expr) → e.Formed (.printable name) → e.Native
  | .literal _ _, h => Literal.Printable.isNative h
  | .var _ _, _ => trivial
  | .group inner _, h => Expr.Formed.native inner h
  | .assign target value _, ⟨_, htarget, hvalue⟩ =>
    ⟨Expr.Formed.native target htarget, Expr.Formed.native value hvalue⟩
  | .unary _ operand _, ⟨_, h⟩ => Expr.Formed.native operand h
  | .binary _ left right _, ⟨_, _, hleft, hright⟩ =>
    ⟨Expr.Formed.native left hleft, Expr.Formed.native right hright⟩
  | .call callee args _, ⟨_, hcallee, hargs⟩ =>
    ⟨Expr.Formed.native callee hcallee, Expr.FormedAll.native args hargs⟩

theorem Expr.FormedAll.native :
    (es : List Expr) → Expr.FormedAll (.printable name) es → Expr.NativeAll es
  | [], _ => trivial
  | e :: rest, ⟨he, hrest⟩ => ⟨Expr.Formed.native e he, Expr.FormedAll.native rest hrest⟩

end

theorem Expr.FormedOption.native {e : Option Expr} (h : Expr.FormedOption (.printable name) e) :
    Expr.NativeOption e :=
  fun e' he' => Expr.Formed.native e' (h e' he')

mutual

theorem Stmt.Formed.native : (s : Stmt) → s.Formed (.printable name) → s.Native
  | .function _ _ _ body _ _, h => Stmt.FormedAll.native body h.2.2.2
  | .var _ _ _ _, ⟨_, _, hinit⟩ => Expr.FormedOption.native hinit
  | .block body _, h => Stmt.FormedAll.native body h
  | .conditional cond body none _, ⟨hcond, _, hbody⟩ =>
    ⟨Expr.Formed.native cond hcond, Stmt.Formed.native body hbody⟩
  | .conditional cond body (some other) _, ⟨hcond, ⟨_, hbody⟩, _, _, hother⟩ =>
    ⟨Expr.Formed.native cond hcond, Stmt.Formed.native body hbody,
      Stmt.Formed.native other hother⟩
  | .loop cond body _, ⟨hcond, _, hbody⟩ =>
    ⟨Expr.Formed.native cond hcond, Stmt.Formed.native body hbody⟩
  | .returning _ _, h => Expr.FormedOption.native h
  | .expr e _, h => Expr.Formed.native e h

theorem Stmt.FormedAll.native :
    (ss : List Stmt) → Stmt.FormedAll (.printable name) ss → Stmt.NativeAll ss
  | [], _ => trivial
  | s :: rest, ⟨_, hs, hrest⟩ => ⟨Stmt.Formed.native s hs, Stmt.FormedAll.native rest hrest⟩

end

theorem Stmt.nativeAll_iff {ss : List Stmt} : Stmt.NativeAll ss ↔ ∀ s ∈ ss, s.Native := by
  induction ss with
  | nil => simp [Stmt.NativeAll]
  | cons s rest ih => simp [Stmt.NativeAll, ih]

/-- What is read without a diagnostic holds no foreign constants. -/
theorem Program.native_parse {file : String} {source : Source} {table : SymbolTable}
    (hclean : (Program.parse file source table).report = []) :
    Stmt.NativeAll (Program.parse file source table).program.body :=
  Stmt.nativeAll_iff.2 fun s hs =>
    Stmt.Formed.native s (TokenStream.printable_of_clean hclean s hs)

end Ember
