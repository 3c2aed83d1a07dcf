import TableDialects.Report
import Mathlib.Data.List.Basic

/-!
# Reports of outcomes

A report is read off its outcomes: the tables are those that are defined, and each problem has the
index of its statement. So the report on statements one after the other is made of two reports.
-/
namespace TableDialects.Report

theorem tables_ofOutcomes (first : Nat) (os : List Table.Outcome) :
    (ofOutcomes first os).tables = os.filterMap (·.result.toOption) := by
  induction os generalizing first with
  | nil => rfl
  | cons o os ih =>
    rw [ofOutcomes, ih, List.filterMap_cons]
    cases o.result.toOption <;> rfl

theorem diagnostics_ofOutcomes (first : Nat) (os : List Table.Outcome) :
    (ofOutcomes first os).diagnostics = (os.zipIdx first).flatMap fun o =>
      (problemsOf o.1).map fun p => ⟨o.2, p⟩ := by
  induction os generalizing first with
  | nil => rfl
  | cons o os ih => rw [ofOutcomes, ih, List.zipIdx_cons, List.flatMap_cons]

/-- A diagnostic whose statement stands behind `n` others. -/
def later (n : Nat) (d : Diagnostic) : Diagnostic := { d with statement := d.statement + n }

private theorem diagnostics_later (n first : Nat) (os : List Table.Outcome) :
    (ofOutcomes (first + n) os).diagnostics =
      (ofOutcomes first os).diagnostics.map (later n) := by
  induction os generalizing first with
  | nil => rfl
  | cons o os ih =>
    have hrest := ih (first + 1)
    rw [Nat.add_right_comm] at hrest
    simp only [ofOutcomes, hrest, List.map_append, List.map_map]
    rfl

theorem ofOutcomes_append (first : Nat) (os os' : List Table.Outcome) :
    (ofOutcomes first (os ++ os')).tables =
        (ofOutcomes first os).tables ++ (ofOutcomes first os').tables ∧
      (ofOutcomes first (os ++ os')).diagnostics = (ofOutcomes first os).diagnostics ++
        (ofOutcomes first os').diagnostics.map (later os.length) := by
  constructor
  · simp only [tables_ofOutcomes, List.filterMap_append]
  · rw [← diagnostics_later, diagnostics_ofOutcomes, List.zipIdx_append, List.flatMap_append,
      ← diagnostics_ofOutcomes, ← diagnostics_ofOutcomes]

end TableDialects.Report
