import Ember.Proofs.Fold.Native
import Ember.Proofs.Naming.Table
import Ember.Proofs.Outline.Rows
import Ember.Proofs.Wat.Spelling

namespace Ember

/-- Two lists that go on as long as their elements satisfy `p` stop at the same place. -/
theorem append_inj_of_stop {α : Type} {p : α → Bool} {a a' rest rest' : List α}
    (ha : ∀ x ∈ a, p x) (ha' : ∀ x ∈ a', p x) (hrest : ∀ x ∈ rest.head?, p x = false)
    (hrest' : ∀ x ∈ rest'.head?, p x = false) (h : a ++ rest = a' ++ rest') :
    a = a' ∧ rest = rest' := by
  have hstop : ∀ {more : List α}, (∀ x ∈ more.head?, p x = false) → more.takeWhile p = [] := by
    intro more hmore
    cases more with
    | nil => rfl
    | cons x more => rw [List.takeWhile_cons, hmore x rfl, if_neg Bool.false_ne_true]
  have htake := congrArg (List.takeWhile p) h
  rw [List.takeWhile_append_of_pos ha, List.takeWhile_append_of_pos ha', hstop hrest, hstop hrest',
    List.append_nil, List.append_nil] at htake
  exact ⟨htake, List.append_cancel_left (htake ▸ h)⟩

/-- The text is one word: it has neither a blank nor a line break. -/
def IsSolid (text : String) : Prop := ∀ c ∈ text.toList, c ≠ ' ' ∧ c ≠ '\n'

instance (text : String) : Decidable (IsSolid text) :=
  decidable_of_iff ((text.toList.all fun c => c != ' ' && c != '\n') = true) (by simp [IsSolid])

namespace IsSolid

theorem append {a b : String} (ha : IsSolid a) (hb : IsSolid b) : IsSolid (a ++ b) := by
  rw [IsSolid, String.toList_append]
  exact List.forall_mem_append.2 ⟨ha, hb⟩

theorem of_isWord {text : String} (h : Wat.IsWord text) : IsSolid text := by
  refine fun c hc => ⟨?_, ?_⟩ <;> rintro rfl <;> exact absurd (h.2 _ hc) (by decide)

theorem datatype (type : Datatype) : IsSolid type.name := by
  cases type with
  | other code =>
    exact append (append (by decide) (of_isWord (Wat.isWord_toString_int code))) (by decide)
  | _ => decide

theorem binaryOp (op : BinaryOp) : IsSolid op.spelling := by
  cases op with
  | unknown code =>
    exact append (append (by decide) (of_isWord (Wat.isWord_toString_int code))) (by decide)
  | _ => decide

theorem boolText (b : Bool) : IsSolid (Literal.boolText b) := by cases b <;> decide

theorem render {l : Literal} (h : l.IsNative) : IsSolid l.render := by
  cases l with
  | int v => exact of_isWord (Wat.isWord_toString_int _)
  | uint v => exact of_isWord (Wat.isWord_toString_nat _)
  | bool b => exact boolText b
  | foreign => exact h.elim

theorem kind (k : NodeKind) : IsSolid k.name := by cases k <;> decide

end IsSolid

theorem NodeKind.name_injective {k k' : NodeKind} (h : k.name = k'.name) : k = k' := by
  cases k <;> cases k' <;> first | rfl | exact absurd h (by decide)

/-- What is found again by its text, but for what is made from a code, is known from the text. -/
theorem injective_of_lookup {α : Type} {text : α → String} (find? : String → Option α)
    (ofCode : Int → α) (before after : String)
    (hcode : ∀ code, text (ofCode code) = before ++ toString code ++ after)
    (hfind : ∀ a, find? (text a) = some a ∨ ∃ code, a = ofCode code ∧ find? (text a) = none)
    {a b : α} (h : text a = text b) : a = b := by
  rcases hfind a with ha | ⟨code, rfl, ha⟩ <;> rcases hfind b with hb | ⟨code', rfl, hb⟩
  · exact Option.some.inj (ha.symm.trans (h ▸ hb))
  · cases ha.symm.trans (h ▸ hb)
  · cases hb.symm.trans (h ▸ ha)
  · rw [hcode, hcode, String.append_left_inj, String.append_right_inj] at h
    rw [Wat.toString_int_injective h]

theorem Datatype.name_injective {a b : Datatype} (h : a.name = b.name) : a = b := by
  refine injective_of_lookup ofName? other "datatype(" ")" (fun _ => rfl) (fun type => ?_) h
  cases type with
  | other code => exact .inr ⟨code, rfl, by simp [ofName?, all, name, ← String.toList_inj]⟩
  | _ => exact .inl (by decide)

theorem BinaryOp.spelling_injective {a b : BinaryOp} (h : a.spelling = b.spelling) : a = b := by
  refine injective_of_lookup ofSpelling? unknown "binop(" ")" (fun _ => rfl) (fun op => ?_) h
  cases op with
  | unknown code =>
    exact .inr ⟨code, rfl, by simp [ofSpelling?, all, spelling, ← String.toList_inj]⟩
  | _ => exact .inl (by decide)

theorem UnaryOp.spelling_injective {a b : UnaryOp} (h : a.spelling = b.spelling) : a = b := by
  cases a <;> cases b <;> first | rfl | exact absurd h (by decide)

/-- A constant is known from its type and its text. -/
theorem Literal.render_injective {a b : Literal} (ha : a.IsNative) (hb : b.IsNative)
    (htype : a.type = b.type) (h : a.render = b.render) : a = b := by
  cases a with
  | foreign => exact ha.elim
  | int v =>
    cases b with
    | int w => rw [Int64.toInt_inj.1 (Wat.toString_int_injective h)]
    | foreign => exact hb.elim
    | uint | bool => cases htype
  | uint v =>
    cases b with
    | uint w => rw [UInt64.toNat_inj.1 (Wat.toString_nat_injective h)]
    | foreign => exact hb.elim
    | int | bool => cases htype
  | bool v =>
    cases b with
    | bool w => cases v <;> cases w <;> first | rfl | exact absurd h (by decide)
    | foreign => exact hb.elim
    | int | uint => cases htype

/-- The words, each after a blank. -/
def spaced (words : List String) : List Char := words.flatMap fun w => ' ' :: w.toList

theorem spaced_stops (words : List String) : ∀ c ∈ (spaced words).head?, (c != ' ') = false := by
  cases words with
  | nil => nofun
  | cons word rest =>
    rintro c ⟨⟩
    rfl

theorem IsSolid.goes_on {text : String} (h : IsSolid text) : ∀ c ∈ text.toList, c != ' ' :=
  fun c hc => bne_iff_ne.2 (h c hc).1

theorem spaced_injective {words words' : List String} (hsolid : ∀ w ∈ words, IsSolid w)
    (hsolid' : ∀ w ∈ words', IsSolid w) (h : spaced words = spaced words') : words = words' := by
  induction words generalizing words' with
  | nil =>
    cases words' with
    | nil => rfl
    | cons => simp [spaced] at h
  | cons word rest ih =>
    cases words' with
    | nil => simp [spaced] at h
    | cons word' rest' =>
      obtain ⟨hword, hrest⟩ := List.forall_mem_cons.1 hsolid
      obtain ⟨hword', hrest'⟩ := List.forall_mem_cons.1 hsolid'
      obtain ⟨-, h⟩ := List.cons.inj h
      obtain ⟨hfirst, hothers⟩ := append_inj_of_stop hword.goes_on hword'.goes_on
        (spaced_stops rest) (spaced_stops rest') h
      rw [String.toList_inj.1 hfirst, ih hrest hrest' hothers]

theorem toList_intercalate_words (word : String) (rest : List String) :
    (" ".intercalate (word :: rest)).toList = word.toList ++ spaced rest := by
  induction rest generalizing word with
  | nil => simp [spaced]
  | cons next rest ih =>
    rw [String.intercalate_cons_cons, String.toList_append, ih, String.toList_append]
    simp [spaced]

namespace Head

/-- A node whose label can be read back. -/
structure Legible (table : SymbolTable) (h : Head) : Prop where
  named : ∀ id ∈ h.id?, ∃ symbol, table.get? id = some symbol ∧ IsSolid symbol.name
  native : ∀ l, h = .literal l → l.IsNative
  file : ∀ file, h = .program file → '\n' ∉ file.toList

variable {t t' : SymbolTable} {h h' : Head}

namespace Legible

theorem isSolid_nameOf (hh : h.Legible t) {id : Int} (hid : id ∈ h.id?) :
    IsSolid (t.nameOf id) := by
  obtain ⟨symbol, hget, hsolid⟩ := hh.named id hid
  simpa [SymbolTable.nameOf, hget] using hsolid

theorem sameName (hh : h.Legible t) (hh' : h'.Legible t') {id id' : Int} (hid : id ∈ h.id?)
    (hid' : id' ∈ h'.id?) (hname : t.nameOf id = t'.nameOf id') : t.SameName t' id id' := by
  obtain ⟨symbol, hget, -⟩ := hh.named id hid
  obtain ⟨symbol', hget', -⟩ := hh'.named id' hid'
  refine ⟨symbol, symbol', hget, hget', ?_⟩
  simpa [SymbolTable.nameOf, hget, hget'] using hname

/-- Only of a program the details need not be words. -/
theorem solid_details (hh : h.Legible t) (hkind : h.kind ≠ .program) :
    ∀ w ∈ h.details t.nameOf, IsSolid w := by
  cases h with
  | program => exact absurd rfl hkind
  | param type id | varDecl type id =>
    exact List.forall_mem_cons.2
      ⟨.datatype type, List.forall_mem_singleton.2 (hh.isSolid_nameOf rfl)⟩
  | function id result =>
    refine List.forall_mem_cons.2 ⟨?_, List.forall_mem_singleton.2 (.datatype result)⟩
    exact (hh.isSolid_nameOf rfl).append (by decide)
  | binary op => exact List.forall_mem_singleton.2 (.binaryOp op)
  | unary op =>
    refine List.forall_mem_singleton.2 ?_
    cases op <;> decide
  | var id => exact List.forall_mem_singleton.2 (hh.isSolid_nameOf rfl)
  | literal l =>
    refine List.forall_mem_cons.2 ⟨.datatype l.type, List.forall_mem_singleton.2 ?_⟩
    exact .render (hh.native l rfl)
  | block | conditional | loop | returning | exprStmt | assign | call | group =>
    exact List.forall_mem_nil _

end Legible

theorem toList_label (name : Int → String) (h : Head) :
    (h.label name).toList = h.kind.name.toList ++ spaced (h.details name) :=
  toList_intercalate_words _ _

theorem Legible.not_newline_mem_label (hh : h.Legible t) : '\n' ∉ (h.label t.nameOf).toList := by
  rw [toList_label, List.mem_append, not_or]
  refine ⟨fun hmem => (IsSolid.kind h.kind _ hmem).2 rfl, fun hmem => ?_⟩
  obtain ⟨w, hw, hchar⟩ := List.mem_flatMap.1 hmem
  replace hchar := (List.mem_cons.1 hchar).resolve_left (by decide)
  by_cases hkind : h.kind = .program
  · cases h with
    | program file =>
      rw [details, List.mem_singleton] at hw
      exact hh.file file rfl (hw ▸ hchar)
    | _ => cases hkind
  · exact (hh.solid_details hkind w hw _ hchar).2 rfl

/-- Nodes of one kind with the same details are the same but for the numbers of their names. -/
theorem alike_of_details (hh : h.Legible t) (hh' : h'.Legible t') (hkind : h.kind = h'.kind)
    (hdetails : h.details t.nameOf = h'.details t'.nameOf) : h.Alike (t.SameName t') h' := by
  cases h with
  | program file =>
    cases h' with
    | program file' =>
      obtain ⟨rfl, -⟩ := List.cons.inj hdetails
      exact .plain rfl
    | _ => cases hkind
  | param type id =>
    cases h' with
    | param type' id' =>
      obtain ⟨htype, hname⟩ := List.cons.inj hdetails
      obtain rfl := Datatype.name_injective htype
      exact .param (hh.sameName hh' rfl rfl (List.cons.inj hname).1)
    | _ => cases hkind
  | function id result =>
    cases h' with
    | function id' result' =>
      obtain ⟨hname, htype⟩ := List.cons.inj hdetails
      obtain rfl := Datatype.name_injective (List.cons.inj htype).1
      exact .function (hh.sameName hh' rfl rfl ((String.append_left_inj _).1 hname))
    | _ => cases hkind
  | varDecl type id =>
    cases h' with
    | varDecl type' id' =>
      obtain ⟨htype, hname⟩ := List.cons.inj hdetails
      obtain rfl := Datatype.name_injective htype
      exact .varDecl (hh.sameName hh' rfl rfl (List.cons.inj hname).1)
    | _ => cases hkind
  | binary op =>
    cases h' with
    | binary op' =>
      obtain rfl := BinaryOp.spelling_injective (List.cons.inj hdetails).1
      exact .plain rfl
    | _ => cases hkind
  | unary op =>
    cases h' with
    | unary op' =>
      obtain rfl := UnaryOp.spelling_injective (List.cons.inj hdetails).1
      exact .plain rfl
    | _ => cases hkind
  | var id =>
    cases h' with
    | var id' => exact .var (hh.sameName hh' rfl rfl (List.cons.inj hdetails).1)
    | _ => cases hkind
  | literal l =>
    cases h' with
    | literal l' =>
      obtain ⟨htype, htext⟩ := List.cons.inj hdetails
      obtain rfl := Literal.render_injective (hh.native l rfl) (hh'.native l' rfl)
        (Datatype.name_injective htype) (List.cons.inj htext).1
      exact .plain rfl
    | _ => cases hkind
  | block | conditional | loop | returning | exprStmt | assign | call | group =>
    cases h' <;> first | exact .plain rfl | cases hkind

/-- The label tells the node, up to the number of its name. -/
theorem alike_of_label (hh : h.Legible t) (hh' : h'.Legible t')
    (hlabel : h.label t.nameOf = h'.label t'.nameOf) : h.Alike (t.SameName t') h' := by
  have hchars := congrArg String.toList hlabel
  rw [toList_label, toList_label] at hchars
  obtain ⟨hkind, hdetails⟩ := append_inj_of_stop (IsSolid.kind h.kind).goes_on
    (IsSolid.kind h'.kind).goes_on (spaced_stops _) (spaced_stops _) hchars
  replace hkind := NodeKind.name_injective (String.toList_inj.1 hkind)
  refine alike_of_details hh hh' hkind ?_
  by_cases hprogram : h.kind = .program
  · -- The name of the file may have blanks in it, but it is all that follows.
    rw [hprogram] at hkind
    cases h <;> cases hprogram
    cases h' <;> cases hkind
    simpa [spaced, details, String.toList_inj] using hdetails
  · exact spaced_injective (hh.solid_details hprogram) (hh'.solid_details (hkind ▸ hprogram))
      hdetails

end Head

namespace Entry

variable {t t' : SymbolTable} {e e' : Entry}

theorem toList_line (name : Int → String) (e : Entry) :
    (e.line name).toList =
      List.replicate (2 * e.depth) ' ' ++ (e.head.label name).toList ++ ['\n'] := by
  simp [line]

theorem label_starts (name : Int → String) (h : Head) :
    ∀ c ∈ (h.label name).toList.head?, (c == ' ') = false := by
  have hne : ∀ k : NodeKind, k.name.toList ≠ [] := fun k => by cases k <;> decide
  rw [Head.toList_label, List.head?_append_of_ne_nil _ (hne h.kind)]
  exact fun c hc => beq_eq_false_iff_ne.2 (IsSolid.kind _ c (List.mem_of_mem_head? hc)).1

/-- The line tells the depth and the node. -/
theorem rowAlike_of_line (he : e.head.Legible t) (he' : e'.head.Legible t')
    (h : List.replicate (2 * e.depth) ' ' ++ (e.head.label t.nameOf).toList =
      List.replicate (2 * e'.depth) ' ' ++ (e'.head.label t'.nameOf).toList) :
    Outline.RowAlike (t.SameName t') (e.depth, e.head) (e'.depth, e'.head) := by
  have hblank : ∀ n, ∀ c ∈ List.replicate n ' ', c == ' ' := fun n c hc =>
    beq_iff_eq.2 (List.eq_of_mem_replicate hc)
  obtain ⟨hindent, hlabel⟩ := append_inj_of_stop (hblank _) (hblank _) (label_starts _ e.head)
    (label_starts _ e'.head) h
  have hdepth : e.depth = e'.depth := by
    have hlength := congrArg List.length hindent
    rw [List.length_replicate, List.length_replicate] at hlength
    omega
  exact ⟨hdepth, Head.alike_of_label he he' (String.toList_inj.1 hlabel)⟩

theorem line_goes_on (he : e.head.Legible t) :
    ∀ c ∈ List.replicate (2 * e.depth) ' ' ++ (e.head.label t.nameOf).toList, c != '\n' := by
  intro c hc
  rw [bne_iff_ne]
  rintro rfl
  refine (List.mem_append.1 hc).elim (fun hc => ?_) he.not_newline_mem_label
  exact absurd (List.eq_of_mem_replicate hc) (by decide)

/-- The lines of entries tell their rows. -/
theorem rowsAlike_of_lines {es es' : List Entry} (hes : ∀ e ∈ es, e.head.Legible t)
    (hes' : ∀ e ∈ es', e.head.Legible t')
    (h : String.join (es.map (·.line t.nameOf)) = String.join (es'.map (·.line t'.nameOf))) :
    List.Forall₂ (Outline.RowAlike (t.SameName t')) (es.map fun e => (e.depth, e.head))
      (es'.map fun e => (e.depth, e.head)) := by
  have hchars := congrArg String.toList h
  rw [String.toList_join, String.toList_join] at hchars
  clear h
  induction es generalizing es' with
  | nil =>
    cases es' with
    | nil => exact .nil
    | cons e' rest' => simp [toList_line] at hchars
  | cons e rest ih =>
    cases es' with
    | nil => simp [toList_line] at hchars
    | cons e' rest' =>
      obtain ⟨he, hrest⟩ := List.forall_mem_cons.1 hes
      obtain ⟨he', hrest'⟩ := List.forall_mem_cons.1 hes'
      have hstop : ∀ more : List Char, ∀ c ∈ (['\n'] ++ more).head?, (c != '\n') = false := by
        rintro more c ⟨⟩
        rfl
      simp only [List.map_cons, List.flatMap_cons, toList_line] at hchars
      rw [List.append_assoc _ ['\n'], List.append_assoc _ ['\n']] at hchars
      obtain ⟨hline, hmore⟩ := append_inj_of_stop (line_goes_on he) (line_goes_on he') (hstop _)
        (hstop _) hchars
      exact .cons (rowAlike_of_line he he' hline) (ih hrest hrest' (List.cons.inj hmore).2)

end Entry

end Ember
