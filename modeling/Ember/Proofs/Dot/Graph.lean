import Mathlib.Logic.Relation
import Ember.Proofs.Dot.Reading
import Ember.Proofs.Outline.Address

namespace Ember.Dot

/-- A backslash of a label is read as two, and everything else as it is. -/
def doubled (c : Char) : List Char := if c = '\\' then ['\\', '\\'] else [c]

theorem runs_escapeChar (before : List Char) (c : Char) :
    Reading.Runs (.quoted before) (escapeChar c) [] (.quoted (before ++ doubled c)) := by
  unfold escapeChar
  split
  · rfl
  · rfl
  · rename_i hbackslash hquote
    have hstep : (Reading.quoted before).step c = some (.quoted (before ++ [c]), []) := by
      rw [Reading.step, if_neg hquote, if_neg hbackslash]
    have hself : doubled c = [c] := if_neg hbackslash
    rw [hself]
    exact .cons hstep rfl

/-- An escaped text does not end the quotes it stands in. -/
theorem runs_escape (before text : List Char) :
    Reading.Runs (.quoted before) (text.flatMap escapeChar) []
      (.quoted (before ++ text.flatMap doubled)) := by
  induction text generalizing before with
  | nil =>
    rw [List.flatMap_nil, List.flatMap_nil, List.append_nil]
    rfl
  | cons c text ih =>
    rw [List.flatMap_cons, List.flatMap_cons, ← List.append_assoc]
    exact (runs_escapeChar before c).append (ih _)

theorem shown?_doubled (text : List Char) : shown? (text.flatMap doubled) = some text := by
  induction text with
  | nil => rfl
  | cons c text ih =>
    rw [List.flatMap_cons]
    by_cases hc : c = '\\'
    · subst hc
      have hstep : shown? ('\\' :: '\\' :: text.flatMap doubled) =
          (shown? (text.flatMap doubled)).map ('\\' :: ·) := rfl
      exact hstep.trans (by rw [ih]; rfl)
    · have hself : doubled c = [c] := if_neg hc
      rw [hself, List.singleton_append, shown?, ih]
      · rfl
      · exact fun _ h _ => hc h
      · exact hc

theorem isWordChar_toString_nat (n : Nat) : ∀ c ∈ (toString n).toList, isWordChar c := by
  rw [Nat.toString_eq_repr, Nat.toList_repr]
  intro c hc
  have hdigit := Nat.isDigit_of_mem_toDigits (by omega) (by omega) hc
  simp [isWordChar, hdigit]

/-- The name of a node. -/
def nodeName (n : Nat) : String := "node" ++ toString n

/-- The name of a node before a text that ends it. -/
theorem runs_nodeName {r r' : Reading} {ahead behind : List Char} {ts us : List Token}
    (h : r.Runs ahead ts (.word "node".toList)) (n : Nat)
    (hbehind : Reading.Runs (.word (nodeName n).toList) behind us r') :
    r.Runs (ahead ++ ((toString n).toList ++ behind)) (ts ++ us) r' := by
  have hdigits := Reading.runs_word "node".toList (isWordChar_toString_nat n)
  rw [nodeName, String.toList_append] at hbehind
  exact h.append (hdigits.append hbehind)

/-- The tokens of the statement for a node. -/
def nodeRow (name : Int → String) (e : Entry) : List Token :=
  [.word (nodeName e.id), .mark '[', .word "label", .mark '=',
    .quoted (String.ofList ((e.head.label name).toList.flatMap doubled)), .mark ']']

/-- The tokens of the statement for an edge. -/
def edgeRow (source target : Nat) : List Token :=
  [.word (nodeName source), .arrow, .word (nodeName target)]

/-- The tokens of the statement that tells how nodes look. -/
def defaultsRow : List Token :=
  [.word "node", .mark '[', .word "shape", .mark '=', .word "box", .mark ',', .word "fontname",
    .mark '=', .quoted "monospace", .mark ']']

/-- The tokens of a statement with its semicolon. -/
def ended (row : List Token) : List Token := row ++ [.mark ';']

theorem runs_nodeLine (name : Int → String) (e : Entry) :
    Reading.Runs .blank (nodeLine name e).toList (ended (nodeRow name e)) .blank := by
  have hopen (w : List Char) : Reading.Runs (.word w) " [label=\"".toList
      [.word (String.ofList w), .mark '[', .word "label", .mark '='] (.quoted []) := rfl
  have hclose (q : List Char) : Reading.Runs (.quoted q) "\"];\n".toList
      [.quoted (String.ofList q), .mark ']', .mark ';'] .blank := rfl
  have hlabel := runs_escape [] (e.head.label name).toList
  have hindent : Reading.Runs .blank "\tnode".toList [] (.word "node".toList) := rfl
  have hline := runs_nodeName hindent e.id ((hopen _).append (hlabel.append (hclose _)))
  simp only [String.ofList_toList, List.nil_append, List.cons_append] at hline
  simpa only [nodeLine, escape, ended, nodeRow, String.toList_append, String.toList_ofList,
    List.append_assoc, List.cons_append, List.nil_append] using hline

theorem runs_edgeLine {e : Entry} {source : Nat} (h : e.parent = source) :
    Reading.Runs .blank (edgeLine e).toList (ended (edgeRow source e.id)) .blank := by
  have hparent : ¬e.parent < 0 := by omega
  have hbehind : Reading.Runs (.word (nodeName e.id).toList) ";\n".toList
      [.word (String.ofList (nodeName e.id).toList), .mark ';'] .blank := rfl
  have harrow : Reading.Runs (.word (nodeName source).toList) " -> node".toList
      [.word (String.ofList (nodeName source).toList), .arrow] (.word "node".toList) := rfl
  have hindent : Reading.Runs .blank "\tnode".toList [] (.word "node".toList) := rfl
  have hline := runs_nodeName hindent source (runs_nodeName harrow e.id hbehind)
  simp only [String.ofList_toList, List.nil_append, List.cons_append] at hline
  have hsource : toString e.parent = toString source := by rw [h]; rfl
  simpa only [edgeLine, if_neg hparent, hsource, ended, edgeRow, String.toList_append,
    List.append_assoc, List.cons_append, List.nil_append] using hline

/-- Neither a semicolon nor a closing brace. -/
def Token.Inner (t : Token) : Prop := t ≠ .mark ';' ∧ t ≠ .mark '\x7d'

instance (t : Token) : Decidable t.Inner := inferInstanceAs (Decidable (_ ∧ _))

/-- The tokens up to a semicolon are one statement. -/
theorem rows_ended {row : List Token} (h : ∀ t ∈ row, t.Inner) (before rest : List Token) :
    rows before (ended row ++ rest) = (rows [] rest).map ((before ++ row) :: ·) := by
  induction row generalizing before with
  | nil =>
    rw [List.append_nil]
    rfl
  | cons t row ih =>
    obtain ⟨ht, hrow⟩ := List.forall_mem_cons.1 h
    have hstep : rows before (t :: (ended row ++ rest)) =
        rows (before ++ [t]) (ended row ++ rest) := by
      rw [rows]
      · exact ht.1
      · exact ht.2
      · exact fun _ h _ => ht.2 h
    rw [List.append_cons before t row, ← ih hrow]
    exact hstep

theorem rows_flatMap_ended {statements : List (List Token)}
    (h : ∀ row ∈ statements, ∀ t ∈ row, t.Inner) :
    rows [] (statements.flatMap ended ++ [.mark '\x7d']) = some statements := by
  induction statements with
  | nil => rfl
  | cons row statements ih =>
    obtain ⟨hrow, hrows⟩ := List.forall_mem_cons.1 h
    rw [List.flatMap_cons, List.append_assoc, rows_ended hrow, ih hrows]
    rfl

theorem number?_nodeName (n : Nat) : number? (nodeName n) = some n := by
  have hname : (nodeName n).toList = 'n' :: 'o' :: 'd' :: 'e' :: (toString n).toList :=
    String.toList_append
  have hvalue : Nat.ofDigitChars 10 (toString n).toList 0 = n := by
    rw [Nat.toString_eq_repr, Nat.toList_repr]
    exact Nat.ofDigitChars_ten_toDigits
  rw [number?, hname]
  simp only [hvalue, String.ofList_toList, if_true]

theorem nodeName_not_mem (n : Nat) : nodeName n ∉ ["graph", "node", "edge"] := by
  intro h
  have hnumber := number?_nodeName n
  simp only [List.mem_cons, List.not_mem_nil, or_false] at h
  rcases h with h | h | h <;> rw [h] at hnumber <;> cases hnumber

theorem statement?_nodeRow (name : Int → String) (e : Entry) :
    statement? (nodeRow name e) = some (.node (nodeName e.id)
      [("label", String.ofList ((e.head.label name).toList.flatMap doubled))]) := by
  rw [nodeRow, statement?, if_neg (nodeName_not_mem e.id)]
  rfl

/-- The statement of a node adds the node with its label. -/
theorem cons?_nodeRow (g : Graph) (name : Int → String) (e : Entry) :
    (statement? (nodeRow name e)).bind g.cons? =
      some { g with nodes := (e.id, e.head.label name) :: g.nodes } := by
  rw [statement?_nodeRow]
  simp [Graph.cons?, number?_nodeName, shown?_doubled]

/-- The statement of an edge adds the edge. -/
theorem cons?_edgeRow (g : Graph) (source target : Nat) :
    (statement? (edgeRow source target)).bind g.cons? =
      some { g with edges := (source, target) :: g.edges } := by
  simp [edgeRow, statement?, Graph.cons?, number?_nodeName]

/-- The statements of a text about a tree: nodes first. -/
theorem ofRows?_nodes (name : Int → String) {rest : List (List Token)} {title : String} {g : Graph}
    (h : Graph.ofRows? title rest = some g) (entries : List Entry) :
    Graph.ofRows? title (entries.map (nodeRow name) ++ rest) =
      some { g with nodes := entries.map (fun e => (e.id, e.head.label name)) ++ g.nodes } := by
  induction entries with
  | nil => exact h
  | cons e entries ih =>
    rw [List.map_cons, List.cons_append, Graph.ofRows?, ih]
    exact cons?_nodeRow _ name e

theorem ofRows?_edges (title : String) (edges : List (Nat × Nat)) :
    Graph.ofRows? title (edges.map fun (source, target) => edgeRow source target) =
      some ⟨title, [], edges⟩ := by
  induction edges with
  | nil => rfl
  | cons edge edges ih =>
    rw [List.map_cons, Graph.ofRows?, ih]
    exact cons?_edgeRow _ edge.1 edge.2

theorem inner_nodeRow (name : Int → String) (e : Entry) : ∀ t ∈ nodeRow name e, t.Inner := by
  simp [nodeRow, Token.Inner]

theorem inner_edgeRow (source target : Nat) : ∀ t ∈ edgeRow source target, t.Inner := by
  simp [edgeRow, Token.Inner]

/-- The statements of the graph of a tree, given the entry of its root and the others. -/
def statementsOf (name : Int → String) (root : Entry) (others : List Entry) : List (List Token) :=
  defaultsRow :: ((root :: others).map (nodeRow name) ++
    (others.map fun e => (e.parent.toNat, e.id)).map fun (source, target) =>
      edgeRow source target)

theorem inner_statementsOf (name : Int → String) (root : Entry) (others : List Entry) :
    ∀ row ∈ statementsOf name root others, ∀ t ∈ row, t.Inner := by
  refine List.forall_mem_cons.2 ⟨by decide, List.forall_mem_append.2 ⟨?_, ?_⟩⟩
  · exact List.forall_mem_map.2 fun e _ => inner_nodeRow name e
  · exact List.forall_mem_map.2 fun edge _ => inner_edgeRow edge.1 edge.2

theorem ofRows?_statementsOf (name : Int → String) (root : Entry) (others : List Entry)
    (title : String) :
    Graph.ofRows? title (statementsOf name root others) =
      some ⟨title, (root :: others).map fun e => (e.id, e.head.label name),
        others.map fun e => (e.parent.toNat, e.id)⟩ := by
  have hnodes := ofRows?_nodes name
    (ofRows?_edges title (others.map fun e => (e.parent.toNat, e.id))) (root :: others)
  rw [List.append_nil] at hnodes
  rw [statementsOf, Graph.ofRows?, hnodes]
  rfl

/-- The text of a graph holds its statements. -/
theorem runs_render (name : Int → String) {root : Entry} {others : List Entry}
    (hroot : root.parent < 0) (hothers : ∀ e ∈ others, 0 ≤ e.parent) :
    Reading.Runs .blank (render name (root :: others)).toList
      ([.word "digraph", .word "ast", .mark '\x7b'] ++
        ((statementsOf name root others).flatMap ended ++ [.mark '\x7d'])) .blank := by
  have hopening : Reading.Runs .blank "digraph ast \x7b\n".toList
      [.word "digraph", .word "ast", .mark '\x7b'] .blank := by decide +kernel
  have hdefaults : Reading.Runs .blank "\tnode [shape=box, fontname=\"monospace\"];\n".toList
      (ended defaultsRow) .blank := by decide +kernel
  have hclosing : Reading.Runs .blank "\x7d\n".toList [.mark '\x7d'] .blank := by decide +kernel
  have hnodes := Reading.runs_join fun e (_ : e ∈ root :: others) => runs_nodeLine name e
  have hedges := Reading.runs_join fun e he =>
    runs_edgeLine (Int.toNat_of_nonneg (hothers e he)).symm
  have hfirst : edgeLine root = "" := if_pos hroot
  have hlines : String.join ((root :: others).map edgeLine) = String.join (others.map edgeLine) := by
    rw [List.map_cons, String.join_cons, hfirst, String.empty_append]
  have hchars : ∀ a b c d e : String, (a ++ b ++ c ++ d ++ e).toList =
      a.toList ++ (b.toList ++ (c.toList ++ (d.toList ++ e.toList))) := by
    intro a b c d e
    simp only [String.toList_append, List.append_assoc]
  have hrows : (statementsOf name root others).flatMap ended = ended defaultsRow ++
      ((root :: others).flatMap (fun e => ended (nodeRow name e)) ++
        others.flatMap fun e => ended (edgeRow e.parent.toNat e.id)) := by
    simp only [statementsOf, List.flatMap_cons, List.flatMap_append, List.flatMap_map]
  have htext := hopening.append (hdefaults.append (hnodes.append (hedges.append hclosing)))
  -- The equation of `render` would compare its long texts character by character.
  delta render
  rw [hlines, hchars, hrows, List.append_assoc, List.append_assoc]
  exact htext

theorem read?_render (name : Int → String) {root : Entry} {others : List Entry}
    (hroot : root.parent < 0) (hothers : ∀ e ∈ others, 0 ≤ e.parent) :
    Graph.read? (render name (root :: others)) =
      some ⟨"ast", (root :: others).map fun e => (e.id, e.head.label name),
        others.map fun e => (e.parent.toNat, e.id)⟩ := by
  have htokens := tokens?_eq (runs_render name hroot hothers)
  have hrows := rows_flatMap_ended (inner_statementsOf name root others)
  simp [Graph.read?, htokens, hrows, ofRows?_statementsOf]

namespace Graph

/-- There is an edge from one node to the other. -/
def Edge (g : Graph) (source target : Nat) : Prop := (source, target) ∈ g.edges

/-- The edges of the graph lead from the root to each of its nodes, and no two of them end at the
same node. -/
structure IsTree (g : Graph) (root : Nat) : Prop where
  root_mem : root ∈ g.nodes.map (·.1)
  distinct : (g.nodes.map (·.1)).Nodup
  ends : ∀ source target, g.Edge source target →
    source ∈ g.nodes.map (·.1) ∧ target ∈ g.nodes.map (·.1)
  rootless : ∀ source, ¬g.Edge source root
  single : (g.edges.map (·.2)).Nodup
  reachable : ∀ n ∈ g.nodes.map (·.1), Relation.ReflTransGen g.Edge root n

end Graph

end Ember.Dot

namespace Ember

namespace Outline

theorem exists_address {o : Outline} {k : Nat} {e : Entry} (h : o.entries[k]? = some e) :
    ∃ address, o.addresses[k]? = some address :=
  ⟨_, List.getElem?_eq_getElem (length_entries o ▸ (List.getElem?_eq_some_iff.1 h).1)⟩

/-- Every entry but the root's has a parent before it. -/
theorem exists_parent {o : Outline} {k : Nat} {e : Entry} (h : o.entries[k + 1]? = some e) :
    ∃ j : Nat, j ≤ k ∧ e.parent = j := by
  have hnumbers := numbers_entries o
  obtain ⟨address, haddress⟩ := exists_address h
  have hne : address ≠ [] := by
    rintro rfl
    exact absurd (hnumbers.root _ e h haddress).1 (Nat.succ_ne_zero k)
  obtain ⟨j, above, hlt, -, hparent, -⟩ := hnumbers.parent _ e address h haddress hne
  exact ⟨j, Nat.le_of_lt_succ hlt, hparent⟩

/-- The entry of the root comes first. -/
theorem exists_root (o : Outline) : ∃ root others, o.entries = root :: others ∧
    root.parent = -1 ∧ ∀ e ∈ others, 0 ≤ e.parent := by
  obtain ⟨head, loc, children⟩ := o
  refine ⟨_, _, rfl, rfl, fun e he => ?_⟩
  obtain ⟨k, hk⟩ := List.mem_iff_getElem?.1 he
  obtain ⟨j, -, hparent⟩ := exists_parent (o := node head loc children) (k := k) hk
  omega

end Outline

namespace Dot.Graph

variable {g : Graph} {o : Outline} {root : Entry} {others : List Entry}

/-- An edge leads to the number of an entry, from a smaller number. -/
theorem exists_entry_of_edge (hentries : o.entries = root :: others)
    (hedges : g.edges = others.map fun e => (e.parent.toNat, e.id)) {source target : Nat}
    (h : g.Edge source target) : source < target ∧ target < o.entries.length := by
  rw [Edge, hedges] at h
  obtain ⟨e, he, hends⟩ := List.mem_map.1 h
  obtain ⟨k, hk⟩ := List.mem_iff_getElem?.1 he
  have hentry : o.entries[k + 1]? = some e := by rw [hentries]; exact hk
  obtain ⟨j, hj, hparent⟩ := Outline.exists_parent hentry
  have hid : e.id = k + 1 := Outline.id_eq_of_entries hentry
  obtain ⟨hlt, -⟩ := List.getElem?_eq_some_iff.1 hentry
  simp only [Prod.mk.injEq] at hends
  omega

/-- An edge leads to each number but 0. -/
theorem exists_edge (hentries : o.entries = root :: others)
    (hedges : g.edges = others.map fun e => (e.parent.toNat, e.id)) {n : Nat}
    (h : n + 1 < o.entries.length) : ∃ source ≤ n, g.Edge source (n + 1) := by
  obtain ⟨e, he⟩ : ∃ e, o.entries[n + 1]? = some e := ⟨_, List.getElem?_eq_getElem h⟩
  obtain ⟨j, hj, hparent⟩ := Outline.exists_parent he
  refine ⟨j, hj, ?_⟩
  rw [Edge, hedges]
  refine List.mem_map.2 ⟨e, ?_, ?_⟩
  · rw [hentries, List.getElem?_cons_succ] at he
    exact List.mem_of_getElem? he
  · rw [hparent, Outline.id_eq_of_entries he]
    rfl

theorem reachable_of_lt (hentries : o.entries = root :: others)
    (hedges : g.edges = others.map fun e => (e.parent.toNat, e.id)) (n : Nat)
    (h : n < o.entries.length) : Relation.ReflTransGen g.Edge 0 n := by
  induction n using Nat.strong_induction_on with
  | _ n ih =>
    cases n with
    | zero => exact .refl
    | succ n =>
      obtain ⟨source, hsource, hedge⟩ := exists_edge hentries hedges h
      have hbefore := ih source (by omega) (by omega)
      exact .tail hbefore hedge

/-- The edges to the entries of a tree from their parents are a tree of the numbers. -/
theorem isTree_of_entries (hentries : o.entries = root :: others)
    (hnodes : g.nodes.map (·.1) = o.entries.map (·.id))
    (hedges : g.edges = others.map fun e => (e.parent.toNat, e.id)) : g.IsTree 0 := by
  have hids : o.entries.map (·.id) = List.range' 0 o.entries.length := by
    rw [Outline.length_entries]
    exact Outline.ids_entriesFrom (-1) 0 0 o
  have hmem (n : Nat) : n ∈ g.nodes.map (·.1) ↔ n < o.entries.length := by
    rw [hnodes, hids, List.mem_range'_1]
    omega
  have hpos : 0 < o.entries.length := by
    rw [hentries]
    exact Nat.succ_pos _
  have htargets : g.edges.map (·.2) = (o.entries.map (·.id)).tail := by
    rw [hedges, hentries, List.map_map]
    rfl
  have hnodup : (o.entries.map (·.id)).Nodup := by
    rw [hids]
    exact List.nodup_range'
  refine ⟨(hmem 0).2 hpos, hnodes ▸ hnodup, fun source target hedge => ?_, fun source hedge => ?_,
    htargets ▸ hnodup.sublist (List.tail_sublist _),
    fun n hn => reachable_of_lt hentries hedges n ((hmem n).1 hn)⟩
  · obtain ⟨hlt, hbound⟩ := exists_entry_of_edge hentries hedges hedge
    exact ⟨(hmem source).2 (Nat.lt_trans hlt hbound), (hmem target).2 hbound⟩
  · exact absurd (exists_entry_of_edge hentries hedges hedge).1 (Nat.not_lt_zero source)

end Dot.Graph

/-- The text of a program's graph is read back to one node for each entry of the program's tree,
with the entry's number and label, and to one edge for each entry but the root's, from the parent of
the entry. These make a tree with the root 0. -/
theorem Program.read?_dot (name : Int → String) (p : Program) :
    ∃ g, Dot.Graph.read? (p.dot name) = some g ∧
      g.nodes = p.entries.map (fun e => (e.id, e.head.label name)) ∧
      g.edges.map (fun (source, target) => ((source : Int), target)) =
        p.entries.tail.map (fun e => (e.parent, e.id)) ∧
      g.IsTree 0 := by
  obtain ⟨root, others, hentries, hroot, hothers⟩ := Outline.exists_root p.outline
  have hbelow : root.parent < 0 := by omega
  have hread := Dot.read?_render name hbelow hothers
  rw [← hentries] at hread
  refine ⟨_, hread, rfl, ?_, Dot.Graph.isTree_of_entries hentries ?_ rfl⟩
  · have htail : p.entries.tail = others := congrArg List.tail hentries
    rw [htail, List.map_map]
    exact List.map_congr_left fun e he => Prod.ext (Int.toNat_of_nonneg (hothers e he)) rfl
  · exact List.map_map

end Ember
