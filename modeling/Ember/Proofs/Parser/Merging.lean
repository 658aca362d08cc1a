import Ember.Proofs.Parser.Termination

namespace Ember

namespace Diagnostic

variable {d : Diagnostic} {r : Report} {file : String}

theorem filter_insertSorted_of_neg (p : Diagnostic → Bool) (hd : p d = false) (r : Report) :
    (d.insertSorted r).filter p = r.filter p := by
  induction r with
  | nil => simp [insertSorted, hd]
  | cons e rest ih =>
    unfold insertSorted
    split
    · rw [List.filter_cons, List.filter_cons, ih]
    · rw [List.filter_cons, hd, if_neg Bool.false_ne_true]

/-- Only what comes before `d` is moved past it. -/
theorem filter_insertSorted_of_pos (p : Diagnostic → Bool) (hd : p d)
    (h : ∀ e ∈ r, p e → e.precedes d = false) :
    (d.insertSorted r).filter p = d :: r.filter p := by
  induction r with
  | nil => simp [insertSorted, hd]
  | cons e rest ih =>
    obtain ⟨he, hrest⟩ := List.forall_mem_cons.1 h
    unfold insertSorted
    split
    · rename_i hprecedes
      have hne : p e = false := by
        cases hp : p e with
        | false => rfl
        | true => rw [he hp] at hprecedes; cases hprecedes
      rw [List.filter_cons, List.filter_cons, hne, if_neg Bool.false_ne_true,
        if_neg Bool.false_ne_true, ih hrest]
    · rw [List.filter_cons, if_pos hd]

theorem precedes_iff {e : Diagnostic} (h : d.loc.file = e.loc.file) :
    d.precedes e = true ↔ d.loc.offset < e.loc.offset := by
  rw [precedes, if_pos h, decide_eq_true_iff]

theorem not_precedes_of_le {e : Diagnostic} (hfile : e.loc.file = d.loc.file)
    (hle : d.loc.offset ≤ e.loc.offset) : e.precedes d = false :=
  Bool.eq_false_iff.2 fun hprecedes => Int.not_lt.2 hle ((precedes_iff hfile).1 hprecedes)

/-- Putting a diagnostic in its place keeps the order of the places. -/
theorem ascending_insertSorted (hd : d.loc.file = file) (hfile : ∀ e ∈ r, e.loc.file = file)
    (h : r.Pairwise fun a b => a.loc.offset ≤ b.loc.offset) :
    (d.insertSorted r).Pairwise fun a b => a.loc.offset ≤ b.loc.offset := by
  induction r with
  | nil => exact List.pairwise_singleton _ _
  | cons e rest ih =>
    obtain ⟨hle, hrest⟩ := List.pairwise_cons.1 h
    obtain ⟨he, hfile⟩ := List.forall_mem_cons.1 hfile
    have hiff := precedes_iff (he.trans hd.symm)
    unfold insertSorted
    split
    · rename_i hprecedes
      refine List.pairwise_cons.2 ⟨fun a ha => ?_, ih hfile hrest⟩
      rcases List.mem_cons.1 ((Report.perm_insertSorted d rest).mem_iff.1 ha) with rfl | ha
      · exact Int.le_of_lt (hiff.1 hprecedes)
      · exact hle a ha
    · rename_i hprecedes
      have hge : d.loc.offset ≤ e.loc.offset := Int.not_lt.1 fun hlt => hprecedes (hiff.2 hlt)
      refine List.pairwise_cons.2 ⟨List.forall_mem_cons.2 ⟨hge, fun a ha => ?_⟩, h⟩
      exact Int.le_trans hge (hle a ha)

end Diagnostic

namespace Report

variable {r : Report} {file : String}

/-- What is in order already keeps its order. -/
theorem filter_sorted (p : Diagnostic → Bool)
    (h : (r.filter p).Pairwise fun d e => e.precedes d = false) :
    r.sorted.filter p = r.filter p := by
  induction r with
  | nil => rfl
  | cons d rest ih =>
    change (d.insertSorted (sorted rest)).filter p = _
    cases hd : p d with
    | false =>
      rw [List.filter_cons, hd, if_neg Bool.false_ne_true] at h ⊢
      rw [Diagnostic.filter_insertSorted_of_neg p hd, ih h]
    | true =>
      rw [List.filter_cons, hd, if_pos rfl] at h ⊢
      obtain ⟨hle, hrest⟩ := List.pairwise_cons.1 h
      rw [Diagnostic.filter_insertSorted_of_pos p hd, ih hrest]
      intro e he hp
      exact hle e (List.mem_filter.2 ⟨mem_sorted.1 he, hp⟩)

/-- The diagnostics of one file are sorted by their places. -/
theorem ascending_sorted (h : ∀ d ∈ r, d.loc.file = file) :
    r.sorted.Pairwise fun d e => d.loc.offset ≤ e.loc.offset := by
  induction r with
  | nil => exact List.Pairwise.nil
  | cons d rest ih =>
    obtain ⟨hd, hrest⟩ := List.forall_mem_cons.1 h
    exact Diagnostic.ascending_insertSorted hd (fun e he => hrest e (mem_sorted.1 he)) (ih hrest)

/-- The diagnostics of one file at one place keep their order. -/
theorem filter_offset_sorted (h : ∀ d ∈ r, d.loc.file = file) (offset : Int) :
    r.sorted.filter (·.loc.offset = offset) = r.filter (·.loc.offset = offset) := by
  refine filter_sorted _ (List.pairwise_of_forall_mem_list fun d hd e he => ?_)
  obtain ⟨hd, hoffset⟩ := List.mem_filter.1 hd
  obtain ⟨he, hoffset'⟩ := List.mem_filter.1 he
  rw [decide_eq_true_iff] at hoffset hoffset'
  exact Diagnostic.not_precedes_of_le ((h e he).trans (h d hd).symm)
    (Int.le_of_eq (hoffset.trans hoffset'.symm))

/-- Of two reports that are merged, the one that is in order already is found again. -/
theorem filter_sorted_append (p : Diagnostic → Bool) {r' : Report} (hr : ∀ d ∈ r, p d)
    (hr' : ∀ d ∈ r', p d = false) (hfile : ∀ d ∈ r, d.loc.file = file)
    (h : r.Pairwise fun d e => d.loc.offset ≤ e.loc.offset) :
    (sorted (r ++ r')).filter p = r := by
  have hsplit : (r ++ r').filter p = r := by
    rw [List.filter_append, List.filter_eq_self.2 hr,
      List.filter_eq_nil_iff.2 fun d hd => Bool.eq_false_iff.1 (hr' d hd), List.append_nil]
  rw [filter_sorted, hsplit]
  rw [hsplit]
  exact h.imp_of_mem fun hd he hle =>
    Diagnostic.not_precedes_of_le ((hfile _ he).trans (hfile _ hd).symm) hle

end Report

open Ember.Parser

theorem TokenStream.file_of_mem {file : String} {source : Source} {t : Token}
    (h : t ∈ (TokenStream.ofSource file source).allTokens) : t.loc.file = file :=
  (TokenStream.layout_ofSource file source).file_of_mem h

/-- The report of a program holds what the reader reports of the text, in the same order, and what
the parser notes: syntax errors at tokens, the end of the file among them. Nothing is lost or
doubled. The places ascend; at one place the reader's problems come first and then the parser's,
both in the order they were found. There is no report exactly if neither found anything. A reader
that the parser has driven to the end of the file has found what the reader of the whole text finds. -/
theorem Program.parse_report (file : String) (source : Source) (table : SymbolTable) :
    let stream := TokenStream.ofSource file source
    let report := (Program.parse file source table).report
    ∃ body s, declarations maxDepth (State.start stream table) = .ok body s ∧
      s.ahead = [] ∧
      (∀ n, stream.tokens.length < n →
        (Cursor.take n (Cursor.ofSource file source)).2.report = stream.report) ∧
      report.filter (·.code.phase = "Lexical") = stream.report ∧
      (∀ d ∈ s.report, d.code.phase = "Syntax" ∧ ∃ t ∈ stream.allTokens, d.loc = t.loc) ∧
      report.Perm (stream.report ++ s.report) ∧
      report.Pairwise (fun d e => d.loc.offset ≤ e.loc.offset) ∧
      (∀ offset : Int, report.filter (·.loc.offset = offset) =
        stream.report.filter (·.loc.offset = offset) ++ s.report.filter (·.loc.offset = offset)) ∧
      (report = [] ↔ stream.report = [] ∧ s.report = []) := by
  intro stream report
  have hlayout := TokenStream.layout_ofSource file source
  obtain ⟨body, s, hrun⟩ := declarations_ok maxDepth (State.start stream table)
  obtain ⟨hmarks, -⟩ := TokenStream.noted hrun
  have hreport : report = Report.sorted (stream.report ++ s.report) :=
    congrArg Parsed.report (TokenStream.parseWithin_of_ok hrun)
  have hfile : ∀ d ∈ stream.report ++ s.report, d.loc.file = file := by
    intro d hd
    rcases List.mem_append.1 hd with hd | hd
    · exact (hlayout.problem hd).2.1
    · obtain ⟨-, t, ht, hloc⟩ := hmarks d hd
      rw [hloc]
      exact TokenStream.file_of_mem ht
  refine ⟨body, s, hrun, ahead_of_declarations (TokenStream.real_start table) hrun,
    fun n hn => ?_, ?_, hmarks, hreport ▸ Report.perm_sorted _,
    hreport ▸ Report.ascending_sorted hfile, fun offset => ?_, ?_⟩
  · obtain ⟨m, rfl⟩ := Nat.exists_eq_add_of_lt hn
    rw [Nat.add_assoc, Cursor.take_ofSource]
  · rw [hreport]
    exact Report.filter_sorted_append _
      (fun d hd => decide_eq_true (TokenStream.phase_of_mem_report hd))
      (fun d hd => by simp [(hmarks d hd).1]) (fun d hd => (hlayout.problem hd).2.1)
      hlayout.problems_ascending
  · rw [hreport, Report.filter_offset_sorted hfile, List.filter_append]
  · rw [hreport, Report.sorted_eq_nil, List.append_eq_nil_iff]

end Ember
