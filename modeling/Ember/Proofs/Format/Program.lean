import Ember.Proofs.Format.Statement

namespace Ember

namespace Grammar

/-- Tokens of the given lexemes are the given parameters. -/
def DerivesParameters (name : Int → String) (ls : List Lexeme) (xs : List Param) : Prop :=
  ∀ ts : List Token, ts.map (·.lexeme) = ls →
    ∃ ps : Option Parameters, Parameters.optionTokens ps = ts ∧
      ∀ t {t' : SymbolTable}, (Parameters.optionBuild ps t).2.Keeps t' →
        List.Forall₂ (Param.Alike (SameText t'.nameOf name) Anywhere)
          (Parameters.optionBuild ps t).1 xs

/-- Tokens of the given lexemes are the given function. -/
def DerivesFunction (name : Int → String) (ls : List Lexeme) (x : Stmt) : Prop :=
  ∀ ts : List Token, ts.map (·.lexeme) = ls →
    ∃ f : Function, f.tokens = ts ∧ f.body.NearestElse ∧
      ∀ t {t' : SymbolTable}, (f.build t).2.Keeps t' →
        Stmt.Alike (SameText t'.nameOf name) Anywhere (f.build t).1 x

/-- In every table that keeps the names of the derivation, its tree is the given one. -/
def Module.Gives (name : Int → String) (m : Module) (xs : List Stmt) : Prop :=
  ∀ t {t' : SymbolTable}, (m.build t).2.Keeps t' →
    Stmt.AlikeAll (SameText t'.nameOf name) Anywhere (m.build t).1 xs

/-- Tokens of the given lexemes have a derivation of the given statements. -/
def DerivesModule (name : Int → String) (ls : List Lexeme) (xs : List Stmt) : Prop :=
  ∀ ts : List Token, ts.map (·.lexeme) = ls →
    ∃ m : Module, m.tokens = ts ∧ m.Gives name xs ∧ m.NearestElse

variable {name : Int → String}

namespace DerivesParameters

theorem none : DerivesParameters name [] [] := by
  intro ts hts
  rw [List.map_eq_nil_iff.1 hts]
  exact ⟨.none, rfl, fun _ _ _ => .nil⟩

theorem one {p : Param} {k : Keyword} (htype : p.type.keyword? = some k) :
    DerivesParameters name [.keyword k, .identifier (name p.id)] [p] := by
  intro ts hts
  obtain ⟨loc, ts, rfl, hname⟩ := exists_of_map_cons hts
  obtain ⟨nameLoc, ts, rfl, hnil⟩ := exists_of_map_cons hname
  obtain ⟨n, htoken, hn⟩ := exists_typeName htype loc
  rw [List.map_eq_nil_iff.1 hnil, ← htoken]
  exact ⟨some (.one ⟨n, name p.id, nameLoc⟩), rfl,
    fun _ _ hkeeps => .cons ⟨hkeeps.nameOf_add, hn, trivial⟩ .nil⟩

/-- A comma stands only behind a parameter. -/
theorem another {ls : List Lexeme} {xs : List Param} (h : DerivesParameters name ls xs)
    (hxs : xs ≠ []) {p : Param} {k : Keyword} (htype : p.type.keyword? = some k) :
    DerivesParameters name (ls ++ [.mark .comma, .keyword k, .identifier (name p.id)])
      (xs ++ [p]) := by
  intro ts hts
  obtain ⟨ts₁, ts₂, rfl, hbefore, hcomma⟩ := List.map_eq_append_iff.1 hts
  obtain ⟨comma, ts₂, rfl, hkeyword⟩ := exists_of_map_cons hcomma
  obtain ⟨loc, ts₂, rfl, hname⟩ := exists_of_map_cons hkeyword
  obtain ⟨nameLoc, ts₂, rfl, hnil⟩ := exists_of_map_cons hname
  obtain ⟨n, htoken, hn⟩ := exists_typeName htype loc
  obtain ⟨ps, rfl, hps⟩ := h ts₁ hbefore
  rw [List.map_eq_nil_iff.1 hnil, ← htoken]
  cases ps with
  | none =>
    have hnil : List.Forall₂ _ [] xs := hps .empty (.refl _)
    exact absurd (List.forall₂_nil_left_iff.1 hnil) hxs
  | some ps =>
    refine ⟨some (.another ps comma ⟨n, name p.id, nameLoc⟩), rfl, fun t _ hkeeps => ?_⟩
    have hfirst := hps t ((SymbolTable.keeps_add _ _ _).trans hkeeps)
    exact List.rel_append hfirst (.cons ⟨hkeeps.nameOf_add, hn, trivial⟩ .nil)

end DerivesParameters

theorem DerivesFunction.mk {ls ls' : List Lexeme} {params : List Param} {body : List Stmt}
    {result : Datatype} {k : Keyword} (id : Int) (hparams : DerivesParameters name ls params)
    (hresult : result.keyword? = some k) (hbody : DerivesClause name .entries ls' body false)
    (bodyPlace place : Location) :
    DerivesFunction name
      (.keyword .fnKw :: .identifier (name id) :: .mark .parenOpen ::
        (ls ++ .mark .parenClose :: .mark .colon :: .keyword k :: .mark .braceOpen ::
          (ls' ++ [.mark .braceClose])))
      (.function id params result body bodyPlace place) := by
  intro ts hts
  obtain ⟨loc, ts, rfl, hname⟩ := exists_of_map_cons hts
  obtain ⟨nameLoc, ts, rfl, hopen⟩ := exists_of_map_cons hname
  obtain ⟨opening, ts, rfl, htail⟩ := exists_of_map_cons hopen
  obtain ⟨ts₁, ts₂, rfl, hinner, hclose⟩ := List.map_eq_append_iff.1 htail
  obtain ⟨closing, ts₂, rfl, hcolon⟩ := exists_of_map_cons hclose
  obtain ⟨colon, ts₂, rfl, htype⟩ := exists_of_map_cons hcolon
  obtain ⟨typeLoc, ts₂, rfl, hbrace⟩ := exists_of_map_cons htype
  obtain ⟨bodyOpening, ts₂, rfl, htail'⟩ := exists_of_map_cons hbrace
  obtain ⟨ts₂, ts₃, rfl, hentries, hend⟩ := List.map_eq_append_iff.1 htail'
  obtain ⟨bodyClosing, ts₃, rfl, hnil⟩ := exists_of_map_cons hend
  obtain ⟨ps, rfl, hps⟩ := hparams ts₁ hinner
  obtain ⟨n, htoken, rfl⟩ := exists_typeName hresult typeLoc
  obtain ⟨c, rfl, hc, helse, _⟩ := hbody ts₂ hentries
  rw [List.map_eq_nil_iff.1 hnil, ← htoken]
  let f : Function := ⟨loc, name id, nameLoc, opening, ps, closing, colon, n, bodyOpening, c,
    bodyClosing⟩
  refine ⟨f, rfl, helse, fun t _ hkeeps => ?_⟩
  have hkeepsParams := (f.keeps_params t).trans hkeeps
  have hid := ((Parameters.keeps_optionBuild _ _).trans hkeepsParams).nameOf_add
  exact .function hid (hps _ hkeepsParams) (hc _ hkeeps) trivial trivial

namespace DerivesModule

variable {ls ls' : List Lexeme} {xs ys : List Stmt} {y : Stmt}

theorem nothing : DerivesModule name [] [] := by
  intro ts hts
  rw [List.map_eq_nil_iff.1 hts]
  exact ⟨.nothing, rfl, fun _ _ _ => .nil, trivial⟩

theorem function (h : DerivesModule name ls xs) (h' : DerivesFunction name ls' y) :
    DerivesModule name (ls ++ ls') (xs ++ [y]) := by
  intro ts hts
  obtain ⟨ts₁, ts₂, rfl, hbefore, hlast⟩ := List.map_eq_append_iff.1 hts
  obtain ⟨before, rfl, hxs, helse⟩ := h ts₁ hbefore
  obtain ⟨f, rfl, helse', hy⟩ := h' ts₂ hlast
  exact ⟨.another before (.function f), rfl, fun t _ hkeeps =>
    (hxs t ((f.keeps_build _).trans hkeeps)).append (.cons (hy _ hkeeps) .nil), helse, helse'⟩

theorem entry (h : DerivesModule name ls xs) (h' : DerivesClause name .entry ls' ys false) :
    DerivesModule name (ls ++ ls') (xs ++ ys) := by
  intro ts hts
  obtain ⟨ts₁, ts₂, rfl, hbefore, hlast⟩ := List.map_eq_append_iff.1 hts
  obtain ⟨before, rfl, hxs, helse⟩ := h ts₁ hbefore
  obtain ⟨e, rfl, hys, helse', _⟩ := h' ts₂ hlast
  exact ⟨.another before (.entry e), rfl, fun t _ hkeeps =>
    (hxs t ((e.keeps_build _).trans hkeeps)).append (hys _ hkeeps), helse, helse'⟩

end DerivesModule

end Grammar

open Grammar Fragment

theorem Param.derives_all {name : Int → String} {ls : List Lexeme} {xs : List Param}
    (h : DerivesParameters name ls xs) (hxs : xs ≠ []) {ps : List Param}
    (hps : ∀ p ∈ ps, p.Printable name) :
    DerivesParameters name
      (ls ++ lexemes ((ps.map (Param.fragments name)).flatMap fun i => mark .comma :: space :: i))
      (xs ++ ps) := by
  induction ps generalizing ls xs with
  | nil => simpa using h
  | cons p rest ih =>
    obtain ⟨⟨htype, _⟩, hrest⟩ := List.forall_mem_cons.1 hps
    obtain ⟨k, hk⟩ := Option.isSome_iff_exists.1 htype
    have hnext := ih (h.another hxs hk) (by simp) hrest
    simpa [Param.fragments, lexemes_datatype hk] using hnext

theorem Param.derives_commaSeparated {name : Int → String} {ps : List Param}
    (hps : ∀ p ∈ ps, p.Printable name) :
    DerivesParameters name (lexemes (commaSeparated (ps.map (Param.fragments name)))) ps := by
  cases ps with
  | nil => exact .none
  | cons p rest =>
    obtain ⟨⟨htype, _⟩, hrest⟩ := List.forall_mem_cons.1 hps
    obtain ⟨k, hk⟩ := Option.isSome_iff_exists.1 htype
    have hall := Param.derives_all (DerivesParameters.one hk) (by simp) hrest
    simpa [commaSeparated_cons, Param.fragments, lexemes_datatype hk] using hall

namespace Stmt

theorem derives_function {name : Int → String} {id : Int} {params : List Param}
    {result : Datatype} {body : List Stmt} {bodyLoc loc : Location}
    (h : (Stmt.function id params result body bodyLoc loc).Printable name) (indent : Nat) :
    DerivesFunction name
      (lexemes ((Stmt.function id params result body bodyLoc loc).fragments name indent))
      (Stmt.function id params result body bodyLoc loc).bracketed := by
  obtain ⟨_, hparams, hresult, hbody⟩ := h
  obtain ⟨k, hk⟩ := Option.isSome_iff_exists.1 hresult
  have hentries := readsAll name body hbody (indent + 1) .nothing
  have hderives := DerivesFunction.mk id (Param.derives_commaSeparated hparams) hk hentries
    bodyLoc loc
  simpa [Stmt.fragments, bracketed, lexemes_datatype hk, lexemes_braces] using hderives

theorem lexemes_programFragments (name : Int → String) (body : List Stmt) :
    lexemes (programFragments name body) = body.flatMap fun s => lexemes (s.fragments name 0) := by
  fun_induction programFragments name body with
  | case1 => rfl
  | case2 s => simp
  | case3 s rest _ ih =>
    have hnewlines :
        lexemes (if s.isFunction then [.newline 0, .newline 0] else [.newline 0]) = [] := by
      split <;> rfl
    simp only [lexemes_append, hnewlines, List.append_nil, ih, List.flatMap_cons]

/-- Printed programs are derivations of the program with the printer's parentheses. -/
theorem derives_bracketed {name : Int → String} {body : List Stmt}
    (h : ∀ s ∈ body, s.Printable name) :
    DerivesModule name (lexemes (programFragments name body)) (bracketedAll body) := by
  have hfrom : ∀ {ls : List Lexeme} {xs : List Stmt}, DerivesModule name ls xs →
      DerivesModule name (ls ++ body.flatMap fun s => lexemes (s.fragments name 0))
        (xs ++ bracketedAll body) := by
    induction body with
    | nil => exact fun hbefore => by simpa [bracketedAll] using hbefore
    | cons s rest ih =>
      intro ls xs hbefore
      obtain ⟨hs, hrest⟩ := List.forall_mem_cons.1 h
      have hnext :
          DerivesModule name (ls ++ lexemes (s.fragments name 0)) (xs ++ [s.bracketed]) := by
        cases hfunction : s.isFunction with
        | true =>
          cases s with
          | function => exact hbefore.function (derives_function hs 0)
          | var | block | conditional | loop | returning | expr => cases hfunction
        | false => exact hbefore.entry (derives_entry hs hfunction 0)
      simpa [bracketedAll] using ih hrest hnext
  rw [lexemes_programFragments]
  exact hfrom .nothing

/-- Printed programs are derivations with the sketch of the program. -/
theorem derives_program {name : Int → String} {body : List Stmt}
    (h : ∀ s ∈ body, s.Printable name) (ts : List Token)
    (hts : ts.map (·.lexeme) = lexemes (programFragments name body)) :
    ∃ m : Module, m.tokens = ts ∧ m.sketch = Stmt.sketches name body ∧ m.NearestElse := by
  obtain ⟨m, htokens, hgives, helse⟩ := derives_bracketed h ts hts
  refine ⟨m, htokens, ?_, helse⟩
  have hsame := (hgives .empty (.refl _)).sketches_eq
  rw [m.sketch_build .empty (.refl _), sketches_bracketed] at hsame
  exact hsame

end Stmt

end Ember
