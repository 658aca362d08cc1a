import Ember.Diagnostic

namespace Ember

/-- Diagnostics of one run of the reader, in the order they were found. -/
abbrev Report := List Diagnostic

namespace Diagnostic

/-- Files come in the order of their names, and within a file offsets do. -/
def precedes (a b : Diagnostic) : Bool :=
  if a.loc.file = b.loc.file then a.loc.offset < b.loc.offset else a.loc.file < b.loc.file

/-- Puts a diagnostic before the first one that it precedes or ties with. -/
def insertSorted (d : Diagnostic) : Report → Report
  | [] => [d]
  | e :: rest => if e.precedes d then e :: insertSorted d rest else d :: e :: rest

end Diagnostic

namespace Report

/-- The diagnostics in the order of their places. Those at one place keep their order. -/
def sorted (r : Report) : Report := r.foldr Diagnostic.insertSorted []

theorem perm_insertSorted (d : Diagnostic) (r : Report) : (d.insertSorted r).Perm (d :: r) := by
  induction r with
  | nil => exact .refl _
  | cons e rest ih =>
    unfold Diagnostic.insertSorted
    split
    · exact (ih.cons e).trans (.swap d e rest)
    · exact .refl _

/-- Sorting neither loses nor doubles a diagnostic. -/
theorem perm_sorted (r : Report) : r.sorted.Perm r := by
  induction r with
  | nil => exact .refl _
  | cons d rest ih => exact (perm_insertSorted d _).trans (ih.cons d)

/-- One line for each diagnostic. -/
def render (r : Report) : String :=
  if r.isEmpty then "no errors" else "\n".intercalate (r.map Diagnostic.render)

/-- There are problems, and all of them come from the end of the input. -/
def isIncomplete (r : Report) : Bool := !r.isEmpty && r.all Diagnostic.isIncomplete

end Report

/-- How messages for a person are written: one a line, in colour or plain. -/
structure Printer where
  color : Bool

namespace Printer

def bold : String := "\x1b[1m"

def red : String := "\x1b[31m"

def reset : String := "\x1b[0m"

/-- A diagnostic on a line of its own, in colour with a bold place and a red heading. -/
def diagnostic (p : Printer) (d : Diagnostic) : String :=
  if p.color then
    let place := if d.loc.isUnset then "" else bold ++ "[" ++ d.loc.render ++ "]" ++ reset ++ " "
    place ++ red ++ d.heading ++ reset ++ " " ++ d.message ++ "\n"
  else d.render ++ "\n"

def report (p : Printer) (r : Report) : String := String.join (r.map p.diagnostic)

/-- Any other message on a line of its own. -/
def line (p : Printer) (text : String) : String :=
  if p.color then red ++ text ++ reset ++ "\n" else text ++ "\n"

end Printer

end Ember
