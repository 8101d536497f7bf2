import NginxConf.Text

/-!
# Diagnostics

What is reported to the user: a range of the text, a message, how serious it is, and whether the
lexer or the grammar found it.
-/

namespace NginxConf

/-- How serious a report is. -/
inductive Severity
  | error
  | warning
deriving DecidableEq, Repr, Inhabited

namespace Severity

/-- The word shown to the user. -/
def label : Severity → String
  | error => "error"
  | warning => "warning"

/-- The rank by which severities are compared: an error comes before a warning. -/
def rank : Severity → Nat
  | error => 0
  | warning => 1

end Severity

/-- Who found the problem. -/
inductive Origin
  /-- A malformed token. -/
  | lexer
  /-- A token out of place or missing, or a rule of the grammar broken. -/
  | grammar
deriving DecidableEq, Repr, Inhabited

/-- A report about a range of a text. -/
structure Diagnostic where
  span : Span
  message : String
  severity : Severity
  origin : Origin
deriving DecidableEq, Repr, Inhabited

namespace Diagnostic

def isError (d : Diagnostic) : Bool := d.severity == .error

/-- The same report about another range. -/
def withSpan (d : Diagnostic) (span : Span) : Diagnostic := { d with span := span }

/-- The report on one line. -/
def render (d : Diagnostic) : String :=
  d.severity.label ++ " " ++ d.span.render ++ ": " ++ d.message

/-- The order of reports: by where they begin, and among equals as they were made. -/
def sort (ds : List Diagnostic) : List Diagnostic :=
  ds.mergeSort fun a b => a.span.start ≤ b.span.start

/-- **Sorting loses and invents nothing.** -/
theorem sort_perm (ds : List Diagnostic) : (sort ds).Perm ds := List.mergeSort_perm _ _

/-- **Reports that are sorted come in the order of where they begin.** -/
theorem sort_sorted (ds : List Diagnostic) :
    (sort ds).Pairwise fun a b => a.span.start ≤ b.span.start := by
  have h : (sort ds).Pairwise fun a b => decide (a.span.start ≤ b.span.start) = true :=
    List.pairwise_mergeSort
      (fun a b c hab hbc => by
        rw [decide_eq_true_eq] at hab hbc ⊢
        exact Nat.le_trans hab hbc)
      (fun a b => by
        rw [Bool.or_eq_true, decide_eq_true_eq, decide_eq_true_eq]
        exact Nat.le_total _ _) ds
  exact h.imp fun hab => of_decide_eq_true hab

/-- Reports in order stay as they are. -/
theorem sort_of_sorted {ds : List Diagnostic}
    (h : ds.Pairwise fun a b => a.span.start ≤ b.span.start) : sort ds = ds :=
  List.mergeSort_of_pairwise (h.imp fun hab => decide_eq_true hab)

end Diagnostic

end NginxConf
