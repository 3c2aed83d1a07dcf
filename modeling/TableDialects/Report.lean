import TableDialects.Statement
import TableDialects.Table.Definition

/-!
# Reports

The tables of a script and the problems of its statements. A statement that defines no table is
reported and does not stop the others.
-/
namespace TableDialects

/-- A problem and the index of its statement. -/
structure Diagnostic where
  statement : Nat
  problem : Problem
  deriving DecidableEq, Repr, Inhabited

structure Report where
  tables : List Table
  diagnostics : List Diagnostic
  deriving DecidableEq, Repr, Inhabited

namespace Report

/-- The diagnostics of statements that define no table. -/
def skipped (r : Report) : List Diagnostic := r.diagnostics.filter (·.problem.dropsStatement)

/-- All problems of a statement. The one that drops it comes last. -/
def problemsOf (o : Table.Outcome) : List Problem :=
  o.problems ++ match o.result with
    | .ok _ => []
    | .error e => [e]

/-- The report on the statements of a script, the first of which has the index `first`. -/
def ofOutcomes (first : Nat) : List Table.Outcome → Report
  | [] => ⟨[], []⟩
  | o :: os =>
    let r := ofOutcomes (first + 1) os
    ⟨o.result.toOption.toList ++ r.tables,
      (problemsOf o).map (fun p => ⟨first, p⟩) ++ r.diagnostics⟩

/-- The report on a script as it stands. -/
def ofScript (script : Text) : Report :=
  ofOutcomes 0 ((Statement.split script).map fun s => Table.read s.text)

end Report

end TableDialects
