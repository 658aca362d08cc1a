import Ember.Dot
import Ember.Proofs.Naming.Tree
import Ember.Proofs.Outline.Parts
import Ember.Proofs.Sound.Tree

namespace Ember

section

variable {r : Int → Int → Prop} {q : Location → Location → Prop}

/-- The node is paired with itself. -/
abbrev Head.Paired (r : Int → Int → Prop) (h : Head) : Prop := ∀ id ∈ h.id?, r id id

mutual

/-- A tree is alike itself if its names are paired with themselves. -/
theorem Expr.alike_self (hq : ∀ loc, q loc loc) :
    (e : Expr) → (e.outline.All fun h _ => h.Paired r) → e.Alike r q e
  | .literal _ loc, _ => .literal (hq loc)
  | .var id loc, h => .var (h.1 id rfl) (hq loc)
  | .group inner loc, h => .group (Expr.alike_self hq inner h.2.1) (hq loc)
  | .assign target value loc, h =>
    .assign (Expr.alike_self hq target h.2.1) (Expr.alike_self hq value h.2.2.1) (hq loc)
  | .unary _ operand loc, h => .unary (Expr.alike_self hq operand h.2.1) (hq loc)
  | .binary _ left right loc, h =>
    .binary (Expr.alike_self hq left h.2.1) (Expr.alike_self hq right h.2.2.1) (hq loc)
  | .call callee args loc, h =>
    .call (Expr.alike_self hq callee h.2.1) (Expr.alikeAll_self hq args h.2.2) (hq loc)

theorem Expr.alikeAll_self (hq : ∀ loc, q loc loc) :
    (es : List Expr) → Outline.AllIn (fun h _ => h.Paired r) (Expr.outlines es) →
    Expr.AlikeAll r q es es
  | [], _ => .nil
  | e :: rest, h => .cons (Expr.alike_self hq e h.1) (Expr.alikeAll_self hq rest h.2)

end

theorem Expr.alike_self_option (hq : ∀ loc, q loc loc) {e : Option Expr}
    (h : Outline.AllIn (fun h _ => h.Paired r) (e.map Expr.outline).toList) :
    Option.Rel (Expr.Alike r q) e e := by
  cases e with
  | none => exact .none
  | some e => exact .some (Expr.alike_self hq e h.1)

theorem Param.alike_self (hq : ∀ loc, q loc loc) {p : Param}
    (h : p.outline.All fun h _ => h.Paired r) : p.Alike r q p :=
  ⟨h.1 p.id rfl, rfl, hq p.loc⟩

mutual

theorem Stmt.alike_self (hq : ∀ loc, q loc loc) :
    (s : Stmt) → (s.outline.All fun h _ => h.Paired r) → s.Alike r q s
  | .function id params result body bodyLoc loc, h => by
    obtain ⟨hid, hparams, _, hbody⟩ := Stmt.all_function.1 h
    exact .function (hid id rfl)
      (List.forall₂_same.2 fun p hp => Param.alike_self hq (hparams p hp))
      (Stmt.alikeAll_self hq body (Stmt.allIn_outlines.2 hbody)) (hq bodyLoc) (hq loc)
  | .var id _ _ loc, h => .var (h.1 id rfl) (Expr.alike_self_option hq h.2) (hq loc)
  | .block body loc, h => .block (Stmt.alikeAll_self hq body h.2) (hq loc)
  | .conditional cond body none loc, h =>
    .ifThen (Expr.alike_self hq cond h.2.1) (Stmt.alike_self hq body h.2.2.1) (hq loc)
  | .conditional cond body (some other) loc, h =>
    .ifElse (Expr.alike_self hq cond h.2.1) (Stmt.alike_self hq body h.2.2.1)
      (Stmt.alike_self hq other h.2.2.2.1) (hq loc)
  | .loop cond body loc, h =>
    .loop (Expr.alike_self hq cond h.2.1) (Stmt.alike_self hq body h.2.2.1) (hq loc)
  | .returning _ loc, h => .returning (Expr.alike_self_option hq h.2) (hq loc)
  | .expr e loc, h => .expr (Expr.alike_self hq e h.2.1) (hq loc)

theorem Stmt.alikeAll_self (hq : ∀ loc, q loc loc) :
    (ss : List Stmt) → Outline.AllIn (fun h _ => h.Paired r) (Stmt.outlines ss) →
    Stmt.AlikeAll r q ss ss
  | [], _ => .nil
  | s :: rest, h => .cons (Stmt.alike_self hq s h.1) (Stmt.alikeAll_self hq rest h.2)

end

end

section

variable {r : Int → Int → Prop} {q : Location → Location → Prop} {name name' : Int → String}

mutual

theorem Expr.Alike.explicitFragments_eq (hname : ∀ a b, r a b → name a = name' b) :
    ∀ {e e' : Expr}, Expr.Alike r q e e' → e.explicitFragments name = e'.explicitFragments name'
  | _, _, .literal _ => rfl
  | _, _, .var hid _ => by simp only [Expr.explicitFragments, hname _ _ hid]
  | _, _, .group hinner _ => by
    simp only [Expr.explicitFragments, hinner.explicitFragments_eq hname]
  | _, _, .assign htarget hvalue _ => by
    simp only [Expr.explicitFragments, htarget.explicitFragments_eq hname,
      hvalue.explicitFragments_eq hname]
  | _, _, .unary hoperand _ => by
    simp only [Expr.explicitFragments, hoperand.explicitFragments_eq hname]
  | _, _, .binary hleft hright _ => by
    simp only [Expr.explicitFragments, hleft.explicitFragments_eq hname,
      hright.explicitFragments_eq hname]
  | _, _, .call hcallee hargs _ => by
    simp only [Expr.explicitFragments, hcallee.explicitFragments_eq hname,
      hargs.explicitFragmentLists_eq hname]

theorem Expr.AlikeAll.explicitFragmentLists_eq (hname : ∀ a b, r a b → name a = name' b) :
    ∀ {es es' : List Expr}, Expr.AlikeAll r q es es' →
      Expr.explicitFragmentLists name es = Expr.explicitFragmentLists name' es'
  | _, _, .nil => rfl
  | _, _, .cons he hrest => by
    simp only [Expr.explicitFragmentLists, he.explicitFragments_eq hname,
      hrest.explicitFragmentLists_eq hname]

end

end

theorem Expr.inherited_all (q : Head → Location → Prop) :
    Expr.Inherited fun e => e.outline.All q := by
  intro e h
  cases e with
  | literal | var => exact List.forall_mem_nil _
  | group | unary => exact List.forall_mem_singleton.2 h.2.1
  | assign | binary => exact List.forall_mem_cons.2 ⟨h.2.1, List.forall_mem_singleton.2 h.2.2.1⟩
  | call => exact List.forall_mem_cons.2 ⟨h.2.1, Expr.allIn_outlines.1 h.2.2⟩

theorem Stmt.inherited_all (q : Head → Location → Prop) :
    Stmt.Inherited (fun e => e.outline.All q) fun s => s.outline.All q where
  operands s h := by
    cases s with
    | function | block => exact List.forall_mem_nil _
    | var | returning =>
      exact fun e he => Expr.allIn_option.1 h.2 e (Option.mem_toList.1 he)
    | conditional cond body other => cases other <;> exact List.forall_mem_singleton.2 h.2.1
    | loop | expr => exact List.forall_mem_singleton.2 h.2.1
  children s h := by
    cases s with
    | function => exact (Stmt.all_function.1 h).2.2.2
    | block => exact Stmt.allIn_outlines.1 h.2
    | conditional cond body other =>
      cases other with
      | none => exact List.forall_mem_singleton.2 h.2.2.1
      | some other =>
        exact List.forall_mem_cons.2 ⟨h.2.2.1, List.forall_mem_singleton.2 h.2.2.2.1⟩
    | loop => exact List.forall_mem_singleton.2 h.2.2.1
    | var | returning | expr => exact List.forall_mem_nil _

theorem Head.details_congr {h : Head} {name name' : Int → String}
    (hname : ∀ id ∈ h.id?, name id = name' id) : h.details name = h.details name' := by
  cases h with
  | param type id | function id result | varDecl type id | var id =>
    simp only [Head.details, hname id rfl]
  | program | block | conditional | loop | returning | exprStmt | assign | binary | unary | call
  | group | literal => rfl

namespace Program.Valid

variable {table : SymbolTable} {p : Program}

theorem parts (h : p.Valid table) : ∀ e ∈ p.parts true, e.Valid table :=
  Stmt.Inherited.partsAll (Expr.inherited_all _) (Stmt.inherited_all _) true p.body h

theorem breach?_eq_none (h : p.Valid table) : p.breach? table = none :=
  Entry.breach?_eq_none h.entries

theorem parts_breach? (h : p.Valid table) :
    ∀ e ∈ p.parts true, Entry.breach? table e.outline.entries = none :=
  fun e he => Entry.breach?_eq_none (Outline.All.entriesFrom _ (h.parts e he) _ _ _)

/-- Names beside those of the table are of no account for what is printed. -/
theorem printed_eq (h : p.Valid table) {name : Int → String}
    (hname : ∀ id symbol, table.get? id = some symbol → name id = symbol.name) :
    p.format name = p.format table.nameOf ∧
      (∀ e ∈ p.parts true, e.explicit name = e.explicit table.nameOf) ∧
      p.dump name = p.dump table.nameOf ∧ p.dot name = p.dot table.nameOf := by
  have hnameOf : ∀ id, (table.get? id).isSome → name id = table.nameOf id := by
    intro id hid
    obtain ⟨symbol, hget⟩ := Option.isSome_iff_exists.1 hid
    simp [hname id symbol hget, SymbolTable.nameOf, hget]
  let r : Int → Int → Prop := fun a b => a = b ∧ (table.get? a).isSome
  have hr : ∀ a b, r a b → name a = table.nameOf b := by
    rintro a _ ⟨rfl, ha⟩
    exact hnameOf a ha
  have hpaired : ∀ (h : Head) (_ : Location), h.Valid table → h.Paired r :=
    fun h _ hvalid id hid => ⟨rfl, hvalid.entered id hid⟩
  have hlabel : ∀ e ∈ p.entries, e.head.label name = e.head.label table.nameOf := by
    intro e he
    have hdetails := Head.details_congr fun id hid => hnameOf id ((h.entries e he).entered id hid)
    rw [Head.label, Head.label, hdetails]
  refine ⟨?_, ?_, ?_, ?_⟩
  · have hbody : Stmt.AlikeAll r Eq p.body p.body := by
      refine Stmt.alikeAll_self (fun _ => rfl) p.body (Stmt.allIn_outlines.2 fun s hs => ?_)
      exact Outline.All.mono hpaired _ (h s hs)
    rw [Program.format, Program.format, hbody.programFragments_eq hr]
  · intro e he
    have hself : e.Alike r Eq e :=
      Expr.alike_self (fun _ => rfl) e (Outline.All.mono hpaired _ (h.parts e he))
    rw [Expr.explicit, Expr.explicit, hself.explicitFragments_eq hr]
  · refine congrArg String.join (List.map_congr_left fun e he => ?_)
    rw [Entry.line, Entry.line, hlabel e he]
  · have hnodes : p.entries.map (Dot.nodeLine name) = p.entries.map (Dot.nodeLine table.nameOf) :=
      List.map_congr_left fun e he => by rw [Dot.nodeLine, Dot.nodeLine, hlabel e he]
    unfold Program.dot Dot.render
    rw [hnodes]

end Program.Valid

end Ember
