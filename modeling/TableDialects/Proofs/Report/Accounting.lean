import TableDialects.Proofs.Report.Outcomes

/-!
# Accounting for statements

A statement is a table or it is skipped, and it is skipped once. The problems that are found in
columns and fragments are lesser ones, so the only problem of a statement that drops it is the one
its definition fails with.
-/
namespace TableDialects

/-- None of the problems drops its statement. -/
def Problem.Lesser (ps : List Problem) : Prop := ∀ p ∈ ps, p.dropsStatement = false

namespace Draft

open Problem

/-- Reading one more clause adds no problem but a default without a value. -/
theorem lesser_add {d : Draft} (h : Lesser d.problems) (c : Clause) : Lesser (d.add c).problems := by
  cases c with
  | missingDefault =>
    intro p hp
    rcases List.mem_append.1 hp with hp | hp
    · exact h p hp
    · obtain rfl := List.mem_singleton.1 hp
      rfl
  | _ => exact h

private theorem lesser_foldl {d : Draft} (h : Lesser d.problems) (cs : List Clause) :
    Lesser (cs.foldl add d).problems := by
  induction cs generalizing d with
  | nil => exact h
  | cons c cs ih => exact ih (lesser_add h c)

end Draft

private theorem Column.lesser_draft (name typeName length : Text) :
    Problem.Lesser (draft name typeName length).problems := by
  intro p hp
  unfold draft at hp
  dsimp only at hp
  split at hp
  · dsimp only at hp
    split at hp
    · obtain rfl := List.mem_singleton.1 hp
      rfl
    · cases hp
  · cases hp

private theorem Column.lesser_read (name typeName : Text) (ls : List Lexeme) :
    Problem.Lesser (read name typeName ls).problems := by
  unfold read
  dsimp only
  rw [Draft.problems_finish]
  exact Draft.lesser_foldl (lesser_draft name _ _) _

/-- What excludes a fragment does not drop the statement. -/
theorem Fragment.lesser_readNamed (first : Lexeme) (name : Text) (rest : List Lexeme) :
    Problem.Lesser (Table.Reading.problems (readNamed first name rest)) := by
  unfold readNamed
  split
  · next typeName following _ =>
    simpa [Table.Reading.problems] using Column.lesser_read name typeName following
  · split
    · simp [Table.Reading.problems, Problem.Lesser]
    · simp [Table.Reading.problems, Problem.Lesser, Problem.dropsStatement]

private theorem Fragment.lesser_read (ls : List Lexeme) :
    Problem.Lesser (Table.Reading.problems (read ls)) := by
  unfold read
  split
  · simp [Table.Reading.problems, Problem.Lesser]
  · split
    · simp [Table.Reading.problems, Problem.Lesser]
    · split
      · simp [Table.Reading.problems, Problem.Lesser]
      · exact lesser_readNamed _ _ _

namespace Table

/-- The problem that a definition fails with drops the statement, and no other does. -/
structure Outcome.Graded (o : Outcome) : Prop where
  lesser : Problem.Lesser o.problems
  drops : ∀ e, o.result = .error e → e.dropsStatement = true

private theorem drops_of_assemble {name : Text} {fs : List Fragment} {e : Problem}
    (h : assemble name fs = .error e) : e.dropsStatement = true := by
  unfold assemble at h
  dsimp only at h
  split at h
  · cases h
    rfl
  · cases h

private theorem graded_read (statement : Text) : (read statement).Graded := by
  unfold read
  split
  · refine ⟨by simp [Problem.Lesser], fun e he => ?_⟩
    cases he
    rfl
  · refine ⟨fun p hp => ?_, fun e he => drops_of_assemble he⟩
    obtain ⟨r, hr, hp⟩ := List.mem_flatMap.1 hp
    obtain ⟨f, -, rfl⟩ := List.mem_map.1 hr
    exact Fragment.lesser_read f p hp

end Table

namespace Report

open Problem

section
variable {o : Table.Outcome}

/-- The problem that a definition fails with. -/
def droppedBy? (o : Table.Outcome) : Option Problem :=
  match o.result with
  | .ok _ => none
  | .error e => some e

private theorem problemsOf_eq (o : Table.Outcome) :
    problemsOf o = o.problems ++ (droppedBy? o).toList := by
  unfold problemsOf droppedBy?
  cases o.result <;> rfl

private theorem filter_problemsOf (h : o.Graded) :
    (problemsOf o).filter dropsStatement = (droppedBy? o).toList := by
  have hlesser : o.problems.filter dropsStatement = [] :=
    List.filter_eq_nil_iff.2 fun p hp => by simp [h.lesser p hp]
  have hdropped : (droppedBy? o).toList.filter dropsStatement = (droppedBy? o).toList := by
    unfold droppedBy?
    cases he : o.result with
    | ok t => rfl
    | error e => simp [h.drops e he]
  rw [problemsOf_eq, List.filter_append, hlesser, hdropped, List.nil_append]

/-- An outcome is a table or drops its statement. -/
theorem length_toOption_add (o : Table.Outcome) :
    o.result.toOption.toList.length + (droppedBy? o).toList.length = 1 := by
  unfold droppedBy?
  cases o.result <;> rfl

end

section
variable {os : List Table.Outcome} {d : Diagnostic}

theorem statement_mem_diagnostics {first : Nat} (hd : d ∈ (ofOutcomes first os).diagnostics) :
    first ≤ d.statement ∧ d.statement < first + os.length := by
  induction os generalizing first with
  | nil => cases hd
  | cons o os ih =>
    rw [ofOutcomes] at hd
    rw [List.length_cons]
    rcases List.mem_append.1 hd with hd | hd
    · obtain ⟨p, -, rfl⟩ := List.mem_map.1 hd
      exact ⟨Nat.le_refl first, Nat.lt_add_of_pos_right (Nat.succ_pos os.length)⟩
    · have := ih hd
      omega

/-- Diagnostics stand in the order of their statements. -/
theorem pairwise_diagnostics (first : Nat) (os : List Table.Outcome) :
    (ofOutcomes first os).diagnostics.Pairwise fun d d' => d.statement ≤ d'.statement := by
  induction os generalizing first with
  | nil => exact .nil
  | cons o os ih =>
    rw [ofOutcomes, List.pairwise_append]
    refine ⟨?_, ih (first + 1), fun d hd d' hd' => ?_⟩
    · rw [List.pairwise_map]
      exact List.pairwise_of_forall fun _ _ => Nat.le_refl _
    · obtain ⟨p, -, rfl⟩ := List.mem_map.1 hd
      have := (statement_mem_diagnostics hd').1
      exact Nat.le_of_succ_le this

/-- The diagnostics of one statement are the problems of its outcome. -/
theorem filter_diagnostics (first : Nat) {i : Nat} (hi : i < os.length) :
    (ofOutcomes first os).diagnostics.filter (·.statement == first + i) =
      (problemsOf os[i]).map fun p => ⟨first + i, p⟩ := by
  induction os generalizing first i with
  | nil => cases hi
  | cons o os ih =>
    rw [ofOutcomes, List.filter_append, List.filter_map]
    cases i with
    | zero =>
      -- the statements behind the first have greater indices
      have hlater : (ofOutcomes (first + 1) os).diagnostics.filter (·.statement == first + 0) = [] :=
        List.filter_eq_nil_iff.2 fun d hd => by
          have := (statement_mem_diagnostics hd).1
          simp only [beq_iff_eq]
          omega
      rw [hlater, List.append_nil, List.filter_eq_self.2 fun p _ => by simp]
      rfl
    | succ i =>
      have hfirst : (problemsOf o).filter
          ((fun d : Diagnostic => d.statement == first + (i + 1)) ∘ fun p => ⟨first, p⟩) = [] :=
        List.filter_eq_nil_iff.2 fun p _ => by simp
      have hrest := ih (first + 1) (Nat.lt_of_succ_lt_succ hi)
      rw [Nat.add_assoc, Nat.add_comm 1 i] at hrest
      rw [hfirst, List.map_nil, List.nil_append, hrest, List.getElem_cons_succ]

private theorem length_tables_add_length_skipped (first : Nat) (h : ∀ o ∈ os, o.Graded) :
    (ofOutcomes first os).tables.length + (ofOutcomes first os).skipped.length = os.length := by
  induction os generalizing first with
  | nil => rfl
  | cons o os ih =>
    have hrest := ih (first + 1) fun o ho => h o (List.mem_cons_of_mem _ ho)
    have hone := length_toOption_add o
    have hfilter : ((problemsOf o).map fun p => (⟨first, p⟩ : Diagnostic)).filter
        (·.problem.dropsStatement) = (droppedBy? o).toList.map fun p => ⟨first, p⟩ := by
      rw [List.filter_map, ← filter_problemsOf (h o List.mem_cons_self)]
      rfl
    simp only [skipped] at hrest ⊢
    rw [ofOutcomes, List.filter_append, hfilter]
    simp only [List.length_append, List.length_map, List.length_cons]
    omega

end

/-- Every statement of a script is a table of the report or is skipped by one diagnostic, which is
the last of its diagnostics and carries the problem that its definition failed with. The
diagnostics stand in the order of the statements. -/
theorem ofScript_accounts (script : Text) :
    let S := Statement.split script
    let r := ofScript script
    r.tables = S.filterMap (fun s => (Table.read s.text).result.toOption) ∧
      (r.diagnostics.map (·.statement)).Pairwise (· ≤ ·) ∧
      (∀ d ∈ r.diagnostics, d.statement < S.length) ∧
      (∀ (i : Nat) (hi : i < S.length),
        let own := r.diagnostics.filter (·.statement == i)
        let dropping := own.filter (·.problem.dropsStatement)
        (∃ t, (Table.read S[i].text).result = .ok t ∧ dropping = []) ∨
          ∃ e, (Table.read S[i].text).result = .error e ∧ dropping = [⟨i, e⟩] ∧
            own.getLast? = some ⟨i, e⟩) ∧
      r.tables.length + r.skipped.length = S.length := by
  intro S r
  have hgraded : ∀ o ∈ S.map fun s => Table.read s.text, o.Graded := by
    intro o ho
    obtain ⟨s, -, rfl⟩ := List.mem_map.1 ho
    exact Table.graded_read s.text
  refine ⟨?_, ?_, fun d hd => ?_, fun i hi => ?_, ?_⟩
  · exact (tables_ofOutcomes 0 _).trans List.filterMap_map
  · exact List.pairwise_map.2 (pairwise_diagnostics 0 _)
  · simpa using (statement_mem_diagnostics hd).2
  · intro own dropping
    have hown : own = (problemsOf (Table.read S[i].text)).map fun p => ⟨i, p⟩ := by
      have hlen : i < (S.map fun s => Table.read s.text).length := by rwa [List.length_map]
      have h := filter_diagnostics 0 hlen
      rw [Nat.zero_add, List.getElem_map] at h
      exact h
    have hdropping : dropping = (droppedBy? (Table.read S[i].text)).toList.map fun p => ⟨i, p⟩ := by
      rw [← filter_problemsOf (Table.graded_read S[i].text)]
      change own.filter _ = _
      rw [hown, List.filter_map]
      rfl
    rw [problemsOf_eq] at hown
    cases he : (Table.read S[i].text).result with
    | ok t =>
      refine .inl ⟨t, rfl, ?_⟩
      rw [hdropping, droppedBy?, he]
      rfl
    | error e =>
      have hdropped : droppedBy? (Table.read S[i].text) = some e := by rw [droppedBy?, he]
      rw [hdropped] at hdropping hown
      refine .inr ⟨e, rfl, hdropping, ?_⟩
      rw [hown]
      simp
  · exact (length_tables_add_length_skipped 0 hgraded).trans (List.length_map _)

/-- A table with a fragment left out, a statement that is no table, and a table of which no column
is left. -/
theorem ofScript_accounts_three :
    let script : Text := "CREATE TABLE a (id INT, g GEOMETRY); DROP TABLE a;\nCREATE TABLE b (g GEOMETRY)"
    (Statement.split script).length = 3 ∧
      (∃ d ∈ (ofScript script).diagnostics, d = ⟨2, .emptyTable "b"⟩ ∧ d.statement < 3) ∧
      ((ofScript script).diagnostics.filter (·.statement == 0)).filter (·.problem.dropsStatement) = [] ∧
      ((ofScript script).diagnostics.filter (·.statement == 2)).filter (·.problem.dropsStatement) =
        [⟨2, .emptyTable "b"⟩] ∧
      (ofScript script).tables.length + (ofScript script).skipped.length = 3 := by
  intro script
  have hlen : (Statement.split script).length = 3 := by decide +kernel
  have hmem : ⟨2, .emptyTable "b"⟩ ∈ (ofScript script).diagnostics := by decide +kernel
  have hresults : ((Statement.split script).map fun s => (Table.read s.text).result.isOk) =
      [true, false, false] := by decide +kernel
  obtain ⟨-, -, hbelow, hstatements, hsum⟩ := ofScript_accounts script
  rw [hlen] at hsum
  refine ⟨hlen, ⟨_, hmem, rfl, hlen ▸ hbelow _ hmem⟩, ?_, ?_, hsum⟩
  · rcases hstatements 0 (by simp [hlen]) with ⟨-, -, hnone⟩ | ⟨e, he, -⟩
    · exact hnone
    · have hfirst := congrArg (·[0]?) hresults
      simp [hlen, he, Except.isOk, Except.toBool] at hfirst
  · rcases hstatements 2 (by simp [hlen]) with ⟨t, ht, -⟩ | ⟨e, he, hone, -⟩
    · have hlast := congrArg (·[2]?) hresults
      simp [hlen, ht, Except.isOk, Except.toBool] at hlast
    · have hown : ⟨2, .emptyTable "b"⟩ ∈ ((ofScript script).diagnostics.filter
          (·.statement == 2)).filter (·.problem.dropsStatement) :=
        List.mem_filter.2 ⟨List.mem_filter.2 ⟨hmem, rfl⟩, rfl⟩
      rw [hone] at hown
      rw [hone, List.mem_singleton.1 hown]

end Report

end TableDialects
