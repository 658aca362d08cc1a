import Mathlib.Data.List.Forall2
import Ember.Proofs.Naming.Tree
import Ember.Tree.Outline

namespace Ember

/-- Nodes that are the same, but for the numbers of their names. -/
inductive Head.Alike (r : Int → Int → Prop) : Head → Head → Prop
  | plain {h : Head} (hid : h.id? = none) : Alike r h h
  | param {type : Datatype} {id id' : Int} (hid : r id id') :
    Alike r (.param type id) (.param type id')
  | function {result : Datatype} {id id' : Int} (hid : r id id') :
    Alike r (.function id result) (.function id' result)
  | varDecl {type : Datatype} {id id' : Int} (hid : r id id') :
    Alike r (.varDecl type id) (.varDecl type id')
  | var {id id' : Int} (hid : r id id') : Alike r (.var id) (.var id')

theorem Head.Alike.eq_of_plain {r : Int → Int → Prop} {h h' : Head} (halike : h.Alike r h')
    (hid : h.id? = none) : h = h' := by
  cases halike with
  | plain => rfl
  | param | function | varDecl | var => cases hid

namespace Outline

variable {r : Int → Int → Prop}

mutual

/-- Trees that are the same, but for the numbers of their names and for their places. -/
inductive Alike (r : Int → Int → Prop) : Outline → Outline → Prop
  | node {head head' : Head} {loc loc' : Location} {children children' : List Outline}
    (hhead : head.Alike r head') (hchildren : AlikeAll r children children') :
    Alike r (.node head loc children) (.node head' loc' children')

inductive AlikeAll (r : Int → Int → Prop) : List Outline → List Outline → Prop
  | nil : AlikeAll r [] []
  | cons {o o' : Outline} {rest rest' : List Outline} (ho : Alike r o o')
    (hrest : AlikeAll r rest rest') : AlikeAll r (o :: rest) (o' :: rest')

end

mutual

/-- The nodes in pre-order with their depths. -/
def rows (depth : Nat) : Outline → List (Nat × Head)
  | .node head _ children => (depth, head) :: childRows (depth + 1) children

def childRows (depth : Nat) : List Outline → List (Nat × Head)
  | [] => []
  | child :: rest => child.rows depth ++ childRows depth rest

end

mutual

theorem map_entriesFrom (parent : Int) (depth id : Nat) : (o : Outline) →
    (o.entriesFrom parent depth id).map (fun e => (e.depth, e.head)) = o.rows depth
  | .node head loc children => by
    rw [entriesFrom, rows, List.map_cons, map_childEntries id (depth + 1) (id + 1) children]

theorem map_childEntries (parent : Int) (depth id : Nat) : (children : List Outline) →
    (childEntries parent depth id children).map (fun e => (e.depth, e.head)) =
      childRows depth children
  | [] => rfl
  | child :: rest => by
    rw [childEntries, childRows, List.map_append, map_entriesFrom parent depth id child,
      map_childEntries parent depth _ rest]

end

/-- Rows of the same depth, with nodes that are the same but for the numbers of their names. -/
def RowAlike (r : Int → Int → Prop) (row row' : Nat × Head) : Prop :=
  row.1 = row'.1 ∧ row.2.Alike r row'.2

/-- The first of the rows is less deep than `depth`. -/
def EndsAbove (depth : Nat) (rows : List (Nat × Head)) : Prop := ∀ row ∈ rows.head?, row.1 < depth

theorem endsAbove_nil (depth : Nat) : EndsAbove depth [] := fun _ h => nomatch h

theorem endsAbove_childRows {depth : Nat} {rest : List (Nat × Head)} (children : List Outline)
    (h : EndsAbove depth rest) : EndsAbove (depth + 1) (childRows depth children ++ rest) := by
  cases children with
  | nil => exact fun row hrow => Nat.lt_succ_of_lt (h row hrow)
  | cons child others =>
    obtain ⟨head, loc, inner⟩ := child
    rintro row ⟨⟩
    exact Nat.lt_succ_self depth

mutual

/-- Rows that start with those of two trees, and go on with rows that are in neither, are alike only
if the trees are. -/
theorem alike_of_rows {depth : Nat} {rest rest' : List (Nat × Head)}
    (hrest : EndsAbove (depth + 1) rest) (hrest' : EndsAbove (depth + 1) rest') :
    (o o' : Outline) →
    List.Forall₂ (RowAlike r) (o.rows depth ++ rest) (o'.rows depth ++ rest') →
      o.Alike r o' ∧ List.Forall₂ (RowAlike r) rest rest'
  | .node head loc children, .node head' loc' children', h => by
    rw [rows, rows, List.cons_append, List.cons_append] at h
    obtain ⟨hrow, hrows⟩ := List.forall₂_cons.1 h
    obtain ⟨hchildren, hafter⟩ := alikeAll_of_rows hrest hrest' children children' hrows
    exact ⟨.node hrow.2 hchildren, hafter⟩

theorem alikeAll_of_rows {depth : Nat} {rest rest' : List (Nat × Head)}
    (hrest : EndsAbove depth rest) (hrest' : EndsAbove depth rest') : (os os' : List Outline) →
    List.Forall₂ (RowAlike r) (childRows depth os ++ rest) (childRows depth os' ++ rest') →
      AlikeAll r os os' ∧ List.Forall₂ (RowAlike r) rest rest'
  | [], [], h => ⟨.nil, h⟩
  | [], .node head' loc' children' :: others', h => by
    -- The first row on the left would be in no tree, and on the right it is a root.
    simp only [childRows, rows, List.nil_append, List.cons_append] at h
    obtain ⟨row, rows, hrow, -, rfl⟩ := List.forall₂_cons_right_iff.1 h
    have hlt : row.1 < depth := hrest row rfl
    rw [hrow.1] at hlt
    exact absurd hlt (Nat.lt_irrefl _)
  | .node head loc children :: others, [], h => by
    simp only [childRows, rows, List.nil_append, List.cons_append] at h
    obtain ⟨row, rows, hrow, -, rfl⟩ := List.forall₂_cons_left_iff.1 h
    have hlt : row.1 < depth := hrest' row rfl
    rw [← hrow.1] at hlt
    exact absurd hlt (Nat.lt_irrefl _)
  | o :: others, o' :: others', h => by
    rw [childRows, childRows, List.append_assoc, List.append_assoc] at h
    obtain ⟨ho, hothers⟩ := alike_of_rows (endsAbove_childRows others hrest)
      (endsAbove_childRows others' hrest') o o' h
    obtain ⟨hall, hafter⟩ := alikeAll_of_rows hrest hrest' others others' hothers
    exact ⟨.cons ho hall, hafter⟩

end

end Outline

end Ember
