namespace Ember.Wat

inductive Token where
  | opening
  | closing
  | atom (word : String)
  | quoted (text : String)
  deriving DecidableEq

/-- The marks that end a word: parentheses and blanks. -/
def isDelimiter (c : Char) : Bool :=
  c == '(' || c == ')' || c == ' ' || c == '\n' || c == '\t' || c == '\r'

/-- The characters of words: those that can be printed, other than quotes, commas, semicolons and
brackets of any kind. -/
def isWordChar (c : Char) : Bool :=
  33 ≤ c.toNat && c.toNat ≤ 126 &&
    !([34, 40, 41, 44, 59, 91, 93, 123, 125].contains c.toNat)

/-- What a place of a text is in the middle of. -/
inductive Reading where
  | blank
  | word (chars : List Char)
  | quoted (chars : List Char)
  deriving DecidableEq

namespace Reading

/-- A parenthesis is a token, a blank is none. -/
def ofDelimiter (c : Char) : List Token :=
  if c = '(' then [.opening] else if c = ')' then [.closing] else []

/-- Reads a character: what it leaves open, and the tokens that end with it. -/
def step : Reading → Char → Option (Reading × List Token)
  | blank, c =>
    if isDelimiter c then some (blank, ofDelimiter c)
    else if c = '"' then some (quoted [], [])
    else if isWordChar c then some (word [c], [])
    else none
  | word chars, c =>
    if isDelimiter c then some (blank, .atom (String.ofList chars) :: ofDelimiter c)
    else if isWordChar c then some (word (chars ++ [c]), [])
    else none
  | quoted chars, c =>
    if c = '"' then some (blank, [.quoted (String.ofList chars)])
    else if c = '\\' then none
    else some (quoted (chars ++ [c]), [])

/-- Reads characters. -/
def run : Reading → List Char → Option (Reading × List Token)
  | r, [] => some (r, [])
  | r, c :: rest => do
    let (r, tokens) ← r.step c
    let (r, more) ← run r rest
    return (r, tokens ++ more)

/-- The tokens that end with the text itself. -/
def finish : Reading → Option (List Token)
  | blank => some []
  | word chars => some [.atom (String.ofList chars)]
  | quoted _ => none

end Reading

/-- The tokens of a text. -/
def tokens? (text : String) : Option (List Token) := do
  let (r, tokens) ← Reading.run .blank text.toList
  return tokens ++ (← r.finish)

/-- How deep tokens are nested at their end; `none` if more is closed than was opened. -/
def nesting : Nat → List Token → Option Nat
  | depth, [] => some depth
  | depth, .opening :: rest => nesting (depth + 1) rest
  | 0, .closing :: _ => none
  | depth + 1, .closing :: rest => nesting depth rest
  | depth, .atom _ :: rest | depth, .quoted _ :: rest => nesting depth rest

/-- Every parenthesis of the text is closed, and none that is not open. -/
def Balanced (text : String) : Prop := (tokens? text >>= nesting 0) = some 0

/-- A tree of a text. -/
inductive Sexp where
  | atom (word : String)
  | quoted (text : String)
  | list (items : List Sexp)

namespace Sexp

/-- Collects trees. What stands before them is kept with the latest first, also for each list
that is open. -/
def collect : (outer : List (List Sexp)) → (before : List Sexp) → List Token → Option (List Sexp)
  | [], before, [] => some before.reverse
  | _ :: _, _, [] => none
  | outer, before, .opening :: rest => collect (before :: outer) [] rest
  | [], _, .closing :: _ => none
  | top :: outer, before, .closing :: rest => collect outer (list before.reverse :: top) rest
  | outer, before, .atom word :: rest => collect outer (atom word :: before) rest
  | outer, before, .quoted text :: rest => collect outer (quoted text :: before) rest

/-- The trees of a text without comments and escapes. -/
def read (text : String) : Option (List Sexp) := tokens? text >>= collect [] []

mutual

def tokens : Sexp → List Token
  | atom word => [.atom word]
  | quoted text => [.quoted text]
  | list items => .opening :: (tokensAll items ++ [.closing])

def tokensAll : List Sexp → List Token
  | [] => []
  | s :: rest => s.tokens ++ tokensAll rest

end

theorem tokensAll_append (as bs : List Sexp) :
    tokensAll (as ++ bs) = tokensAll as ++ tokensAll bs := by
  induction as with
  | nil => rfl
  | cons a as ih => simp [tokensAll, ih]

mutual

/-- The tokens of a tree are collected to the tree. -/
theorem collect_tokens (outer : List (List Sexp)) (before : List Sexp) (rest : List Token) :
    (s : Sexp) → collect outer before (s.tokens ++ rest) = collect outer (s :: before) rest
  | atom _ | quoted _ => by cases outer <;> rfl
  | list items => by
    have hitems := collect_tokensAll (before :: outer) [] (.closing :: rest) items
    simp only [tokens, List.cons_append, List.append_assoc, List.nil_append, collect, hitems,
      List.append_nil, List.reverse_reverse]

theorem collect_tokensAll (outer : List (List Sexp)) (before : List Sexp) (rest : List Token) :
    (ss : List Sexp) →
    collect outer before (tokensAll ss ++ rest) = collect outer (ss.reverse ++ before) rest
  | [] => rfl
  | s :: ss => by
    rw [tokensAll, List.append_assoc, collect_tokens outer before _ s,
      collect_tokensAll outer (s :: before) rest ss, List.reverse_cons, List.append_assoc]
    rfl

end

/-- What is read is nested as it should be. -/
theorem nesting_of_collect {outer : List (List Sexp)} {before : List Sexp} {ts : List Token}
    {trees : List Sexp} (h : collect outer before ts = some trees) :
    nesting outer.length ts = some 0 := by
  induction ts generalizing outer before with
  | nil =>
    cases outer with
    | nil => rfl
    | cons top outer => cases h
  | cons t ts ih =>
    cases t with
    | opening =>
      have h : collect (before :: outer) [] ts = some trees := by cases outer <;> exact h
      have hrest := ih h
      cases outer <;> exact hrest
    | closing =>
      cases outer with
      | nil => cases h
      | cons top outer => exact ih h
    | atom word =>
      have h : collect outer (atom word :: before) ts = some trees := by cases outer <;> exact h
      have hrest := ih h
      cases outer <;> exact hrest
    | quoted text =>
      have h : collect outer (quoted text :: before) ts = some trees := by cases outer <;> exact h
      have hrest := ih h
      cases outer <;> exact hrest

theorem balanced_of_read {text : String} {trees : List Sexp} (h : read text = some trees) :
    Balanced text := by
  unfold read at h
  unfold Balanced
  cases htokens : tokens? text with
  | none =>
    rw [htokens] at h
    cases h
  | some ts =>
    rw [htokens] at h
    have hnesting : nesting ([] : List (List Sexp)).length ts = some 0 := nesting_of_collect h
    exact hnesting

end Sexp

/-- The text has the given tokens, and what follows it starts a new one. -/
def Lexes (text : String) (ts : List Token) : Prop :=
  Reading.run .blank text.toList = some (.blank, ts)

instance (text : String) (ts : List Token) : Decidable (Lexes text ts) :=
  inferInstanceAs (Decidable (_ = _))

/-- The text can be a word. -/
def IsWord (text : String) : Prop := text.toList ≠ [] ∧ ∀ c ∈ text.toList, isWordChar c

instance (text : String) : Decidable (IsWord text) :=
  decidable_of_iff ((!text.toList.isEmpty && text.toList.all isWordChar) = true)
    (by simp [IsWord])

/-- The text ends a word before it. -/
def EndsWord (text : String) : Prop := text.toList.head?.any isDelimiter = true

instance (text : String) : Decidable (EndsWord text) := inferInstanceAs (Decidable (_ = _))

namespace Reading

theorem run_append {r r' : Reading} {as bs : List Char} {ts : List Token}
    (h : r.run as = some (r', ts)) :
    r.run (as ++ bs) = (r'.run bs).map fun (r, more) => (r, ts ++ more) := by
  induction as generalizing r ts with
  | nil =>
    cases h
    simp
  | cons c as ih =>
    simp only [run, List.cons_append] at h ⊢
    cases hstep : r.step c with
    | none =>
      rw [hstep] at h
      cases h
    | some x =>
      obtain ⟨r₁, first⟩ := x
      rw [hstep] at h
      cases hrun : r₁.run as with
      | none =>
        simp [hrun] at h
      | some y =>
        obtain ⟨r₂, rest⟩ := y
        simp only [hrun, Option.bind_eq_bind, Option.bind_some, Option.pure_def, Option.some.injEq,
          Prod.mk.injEq] at h
        obtain ⟨rfl, rfl⟩ := h
        simp only [ih hrun, Option.bind_eq_bind, Option.bind_some]
        cases r₂.run bs with
        | none => rfl
        | some z => simp

theorem not_isDelimiter_of_isWordChar {c : Char} (h : isWordChar c) : isDelimiter c = false := by
  cases hc : isDelimiter c with
  | false => rfl
  | true =>
    simp only [isDelimiter, Bool.or_eq_true, beq_iff_eq] at hc
    rcases hc with ((((rfl | rfl) | rfl) | rfl) | rfl) | rfl <;> revert h <;> decide

theorem ne_quote_of_isWordChar {c : Char} (h : isWordChar c) : c ≠ '"' := by
  rintro rfl
  revert h
  decide

/-- A word goes on as long as its characters do. -/
theorem run_word (chars : List Char) {more : List Char} (h : ∀ c ∈ more, isWordChar c) :
    (word chars).run more = some (word (chars ++ more), []) := by
  induction more generalizing chars with
  | nil => simp [run]
  | cons c more ih =>
    obtain ⟨hc, hmore⟩ := List.forall_mem_cons.1 h
    have hstep : (word chars).step c = some (word (chars ++ [c]), []) := by
      simp [step, not_isDelimiter_of_isWordChar hc, hc]
    simp [run, hstep, ih (chars ++ [c]) hmore]

theorem run_blank_of_isWord {text : String} (h : IsWord text) :
    blank.run text.toList = some (word text.toList, []) := by
  obtain ⟨hne, hall⟩ := h
  generalize text.toList = chars at hne hall
  cases chars with
  | nil => exact absurd rfl hne
  | cons c more =>
    obtain ⟨hc, hmore⟩ := List.forall_mem_cons.1 hall
    have hstep : blank.step c = some (word [c], []) := by
      simp [step, not_isDelimiter_of_isWordChar hc, ne_quote_of_isWordChar hc, hc]
    simp [run, hstep, run_word [c] hmore]

/-- A word is complete where a delimiter follows. -/
theorem run_word_of_endsWord {text after : String} {ts : List Token} (hend : EndsWord after)
    (h : Lexes after ts) :
    (word text.toList).run after.toList = some (blank, .atom text :: ts) := by
  unfold Lexes at h
  unfold EndsWord at hend
  generalize after.toList = chars at h hend
  cases chars with
  | nil => cases hend
  | cons c rest =>
    have hc : isDelimiter c := hend
    simp only [run, step, hc, if_true, String.ofList_toList] at h ⊢
    cases hrest : blank.run rest with
    | none => simp [hrest] at h
    | some x =>
      simp only [hrest, Option.bind_eq_bind, Option.bind_some, Option.pure_def, Option.some.injEq,
        Prod.mk.injEq] at h ⊢
      exact ⟨h.1, by rw [List.cons_append, h.2]⟩

end Reading

namespace Lexes

variable {text more after w : String} {ts us : List Token}

theorem append (h : Lexes text ts) (h' : Lexes more us) : Lexes (text ++ more) (ts ++ us) := by
  unfold Lexes at h h' ⊢
  rw [String.toList_append, Reading.run_append h, h']
  rfl

/-- A word between two texts. -/
theorem word (h : Lexes text ts) (hword : IsWord w) (hend : EndsWord after)
    (h' : Lexes after us) : Lexes (text ++ w ++ after) (ts ++ .atom w :: us) := by
  have hrest : Reading.run .blank (w.toList ++ after.toList) = some (.blank, .atom w :: us) := by
    rw [Reading.run_append (Reading.run_blank_of_isWord hword),
      Reading.run_word_of_endsWord hend h']
    rfl
  unfold Lexes at h ⊢
  rw [String.toList_append, String.toList_append, List.append_assoc, Reading.run_append h, hrest]
  rfl

theorem tokens?_eq (h : Lexes text ts) : tokens? text = some ts := by
  unfold Lexes at h
  simp [tokens?, h, Reading.finish]

theorem join {α : Type} {spell : α → String} {tokens : α → List Token} {xs : List α}
    (h : ∀ x ∈ xs, Lexes (spell x) (tokens x)) :
    Lexes (String.join (xs.map spell)) (xs.flatMap tokens) := by
  induction xs with
  | nil =>
    rw [List.map_nil, String.join_nil]
    rfl
  | cons x xs ih =>
    obtain ⟨hx, hxs⟩ := List.forall_mem_cons.1 h
    rw [List.map_cons, String.join_cons, List.flatMap_cons]
    exact hx.append (ih hxs)

end Lexes

/-- A text whose tokens are those of a tree is read to the tree. -/
theorem Sexp.read_of_lexes {text : String} {s : Sexp} (h : Lexes text s.tokens) :
    read text = some [s] := by
  have hcollect := collect_tokens [] [] [] s
  rw [List.append_nil] at hcollect
  rw [read, h.tokens?_eq]
  exact hcollect

end Ember.Wat
