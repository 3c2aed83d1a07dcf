import TableDialects.Proofs.Table.Keys
import TableDialects.Table.Rendering

/-!
# The primary key of a table

A statement may hold any number of primary key constraints. Of those over one name and of those
over several names the last one counts, and one over several names revokes what a single name
before it has settled, but not the other way round. So a table can have two primary keys, and a
table that counts up by itself can be left without any.
-/
namespace TableDialects.Table

section
variable {fs : List Fragment} {name : Text} {t : Table}
  (hf : ∀ c p, .column c p ∈ fs → c.Typed ∧ c.key = false)
include hf

private theorem columns_assemble (h : assemble name fs = .ok t) :
    t.columns = (declared fs).map fun p =>
      { p.1 with key := isKey fs p, nullable := p.1.nullable && !isKey fs p } := by
  obtain ⟨u, hu, -, hassembled⟩ := @assembled fs name hf (declared_ne_nil h)
  obtain rfl : u = t := Except.ok.inj (hu.symm.trans h)
  exact hassembled.columns

/-- A column that counts up by itself is a key of its own unless a key is declared. -/
theorem countingKey?_eq_none_iff (h : assemble name fs = .ok t)
    (hc : ∃ c ∈ t.columns, c.autoIncrement = true) :
    countingKey? fs = none ↔ ∃ p ∈ declared fs, isDeclaredKey fs p = true := by
  rw [columns_assemble hf h] at hc
  obtain ⟨c, hmem, hcounting⟩ := hc
  obtain ⟨p, hp, rfl⟩ := List.mem_map.1 hmem
  rw [← List.any_eq_true, countingKey?]
  split
  · next hany => simp [hany]
  · next hany =>
    refine iff_of_false (fun hnone => ?_) hany
    exact List.find?_eq_none.1 hnone p hp hcounting

end

/-- The lines of a definition that make a primary key: those of columns that are the primary key
by themselves, and the one after the columns. -/
def primaryLines (d : Dialect) (t : Table) : List Text :=
  ((t.columns.filter fun c => t.isPrimary c.name).map fun c => c.render d true) ++
    (t.renderLines d).drop t.columns.length

private theorem filter_same {cs : List Column} (h : Distinct (cs.map (·.name))) {c : Column}
    (hc : c ∈ cs) : (cs.filter fun d => Text.same c.name d.name) = [c] := by
  induction cs with
  | nil => exact absurd hc (by simp)
  | cons d cs ih =>
    rw [List.map_cons, Distinct, List.pairwise_cons] at h
    rcases List.mem_cons.1 hc with rfl | hc
    · have hrest : (cs.filter fun d => Text.same c.name d.name) = [] :=
        List.filter_eq_nil_iff.2 fun e he => by simp [h.1 e.name (List.mem_map_of_mem he)]
      have hself : Text.same c.name c.name = true := beq_self_eq_true _
      rw [List.filter_cons, hrest, if_pos hself]
    · have hd : Text.same c.name d.name = false := by
        rw [same_comm]
        exact h.1 c.name (List.mem_map_of_mem hc)
      simp [hd, ih h.2 hc]

/-- Each of the two kinds of a primary key has one line. -/
theorem WellFormed.length_primaryLines {t : Table} (h : t.WellFormed) (d : Dialect) :
    (t.primaryLines d).length =
      (if t.primaryKey = none then 0 else 1) + if t.compositeKey = [] then 0 else 1 := by
  have hkey : ((t.renderLines d).drop t.columns.length).length =
      if t.compositeKey = [] then 0 else 1 := by
    rw [renderLines, List.drop_left' (List.length_map _)]
    by_cases hc : t.compositeKey = [] <;> simp [hc]
  have hinline : (t.columns.filter fun c => t.isPrimary c.name).length =
      if t.primaryKey = none then 0 else 1 := by
    cases hp : t.primaryKey with
    | none => simp [isPrimary, hp]
    | some p =>
      obtain ⟨c, hc, rfl, -⟩ := h.primary p hp
      simp [isPrimary, hp, filter_same h.distinct hc]
  rw [primaryLines, List.length_append, List.length_map, hkey, hinline]

private theorem exclusive_of_length_le {fs : List Fragment} (h : (primaryLists fs).length ≤ 1) :
    singleKey? fs = none ∨ severalKey fs = [] := by
  rcases hlists : primaryLists fs with _ | ⟨names, _ | ⟨more, lists⟩⟩
  · right
    rw [severalKey, hlists]
    rfl
  · have hsingle := lastSingle_concat [] names
    have hseveral := lastSeveral_concat [] names
    rw [List.nil_append] at hsingle hseveral
    by_cases htwo : 2 ≤ names.length
    · left
      rw [singleKey?, hlists, hsingle, if_pos htwo]
      rfl
    · right
      rw [severalKey, hlists, hseveral, if_neg htwo]
      rfl
  · rw [hlists] at h
    exact absurd h (by simp)

private theorem inlineKey?_eq_none_iff {fs : List Fragment} :
    inlineKey? fs = none ↔ ∀ p ∈ declared fs, p.2 = false := by
  simp [inlineKey?]

/-- Where no column carries a primary key, constraints alone declare keys. -/
theorem isDeclaredKey_iff {fs : List Fragment} (hinline : inlineKey? fs = none)
    {p : Column × Bool} (hp : p ∈ declared fs) :
    isDeclaredKey fs p = true ↔
      ∃ name ∈ fs.flatMap Fragment.keyNames, p.1.isNamed name = true := by
  rw [isDeclaredKey, inlineKey?_eq_none_iff.1 hinline p hp, Bool.false_or, List.any_eq_true]

/-- A table has one primary key at most unless a constraint over one of its columns comes after
the last constraint over several names, and so does its definition in every dialect. -/
theorem read_exclusive_iff {statement : Text} {t : Table} (h : (read statement).result = .ok t) :
    let fs := fragmentsOf statement
    (t.primaryKey = none ∨ t.compositeKey = [] ↔ singleKey? fs = none ∨ severalKey fs = []) ∧
      ((primaryLists fs).length ≤ 1 → t.primaryKey = none ∨ t.compositeKey = []) ∧
      ∀ d, (t.primaryLines d).length ≤ 1 ↔ t.primaryKey = none ∨ t.compositeKey = [] := by
  intro fs
  obtain ⟨name, hassemble⟩ := exists_assemble h
  obtain ⟨hcomposite, hprimary⟩ := keys_assemble (fun _ _ hc => typed_fragmentsOf hc) hassemble
  have hiff : t.primaryKey = none ∨ t.compositeKey = [] ↔
      singleKey? fs = none ∨ severalKey fs = [] := by
    rw [hcomposite, hprimary]
    by_cases hs : severalKey fs = []
    · exact iff_of_true (.inr hs) (.inr hs)
    · rw [if_neg hs, Option.or_none]
  refine ⟨hiff, fun hle => hiff.2 (exclusive_of_length_le hle), fun d => ?_⟩
  rw [(wellFormed_of_assemble hassemble).length_primaryLines d]
  by_cases hp : t.primaryKey = none <;> by_cases hc : t.compositeKey = [] <;> simp [hp, hc]

/-- Two constraints over known columns, of which the second takes the place of the first. -/
theorem read_exclusive_last :
    let statement : Text :=
      "CREATE TABLE t (a INT, b INT, c INT, PRIMARY KEY (c), PRIMARY KEY (a, b))"
    let column (name : Text) : Column := { name, typeName := "INT", key := true, nullable := false }
    let t : Table :=
      { name := "t", columns := [column "a", column "b", column "c"], compositeKey := ["a", "b"] }
    (read statement).result = .ok t ∧ singleKey? (fragmentsOf statement) = none ∧
      (t.primaryLines .mysql).length ≤ 1 := by
  intro statement column t
  have h : (read statement).result = .ok t := by decide +kernel
  obtain ⟨hiff, -, hlines⟩ := read_exclusive_iff h
  have hkeys : t.primaryKey = none ∨ t.compositeKey = [] := .inl rfl
  have hsettled := hiff.1 hkeys
  have hseveral : severalKey (fragmentsOf statement) ≠ [] := by decide +kernel
  exact ⟨h, hsettled.resolve_right hseveral, (hlines .mysql).2 hkeys⟩

/-- A single name does not revoke the several names before it. -/
theorem read_twoKeys :
    let statement : Text :=
      "CREATE TABLE t (a INT, b INT, c INT, PRIMARY KEY (a, b), PRIMARY KEY (c))"
    ∃ t, (read statement).result = .ok t ∧ t.primaryKey = some "c".toList ∧
      t.compositeKey = ["a".toList, "b".toList] ∧ (t.primaryLines .mysql).length = 2 := by
  intro statement
  let column (name : Text) : Column := { name, typeName := "INT", key := true, nullable := false }
  let t : Table :=
    { name := "t"
      columns := [column "a", column "b", column "c"]
      primaryKey := some "c".toList
      compositeKey := ["a", "b"] }
  have h : (read statement).result = .ok t := by decide +kernel
  obtain ⟨name, hassemble⟩ := exists_assemble h
  refine ⟨t, h, rfl, rfl, ?_⟩
  rw [(wellFormed_of_assemble hassemble).length_primaryLines]
  rfl

/-- When a table that counts up by itself has no primary key: neither a constraint nor a column
settles one, but a key constraint names a column, be it a unique key or a primary key that a
later constraint revokes. -/
theorem read_unkeyed_iff {statement : Text} {t : Table} (h : (read statement).result = .ok t)
    (hcounting : ∃ c ∈ t.columns, c.autoIncrement = true) :
    let fs := fragmentsOf statement
    (t.primaryKey = none ∧ t.compositeKey = [] ↔
        singleKey? fs = none ∧ severalKey fs = [] ∧ inlineKey? fs = none ∧
          ∃ p ∈ declared fs, ∃ name ∈ fs.flatMap Fragment.keyNames, p.1.isNamed name = true) ∧
      ∀ d, t.primaryLines d = [] ↔ t.primaryKey = none ∧ t.compositeKey = [] := by
  intro fs
  have hf : ∀ c p, .column c p ∈ fs → c.Typed ∧ c.key = false := fun _ _ hc => typed_fragmentsOf hc
  obtain ⟨name, hassemble⟩ := exists_assemble h
  obtain ⟨hcomposite, hprimary⟩ := keys_assemble hf hassemble
  have hnone := countingKey?_eq_none_iff hf hassemble hcounting
  constructor
  · rw [hcomposite, hprimary]
    constructor
    · rintro ⟨hp, hs⟩
      simp only [hs, if_true, Option.or_eq_none_iff, Option.map_eq_none_iff] at hp
      obtain ⟨hsingle, hinline, hcount⟩ := hp
      obtain ⟨p, hp, hdeclared⟩ := hnone.1 hcount
      exact ⟨hsingle, hs, hinline, p, hp, (isDeclaredKey_iff hinline hp).1 hdeclared⟩
    · rintro ⟨hsingle, hs, hinline, p, hp, hnamed⟩
      have hcount := hnone.2 ⟨p, hp, (isDeclaredKey_iff hinline hp).2 hnamed⟩
      exact ⟨by simp [hsingle, hs, hinline, hcount], hs⟩
  · intro d
    rw [← List.length_eq_zero_iff, (wellFormed_of_assemble hassemble).length_primaryLines d]
    by_cases hp : t.primaryKey = none <;> by_cases hc : t.compositeKey = [] <;> simp [hp, hc]

/-- The second constraint names no column, so it revokes the primary key and leaves the key. -/
theorem read_unkeyed_revoked :
    let statement : Text :=
      "CREATE TABLE t (id INT AUTO_INCREMENT, PRIMARY KEY (id), PRIMARY KEY (gone))"
    let id : Column :=
      { name := "id", typeName := "INT", key := true, nullable := false, autoIncrement := true }
    let t : Table := { name := "t", columns := [id] }
    (read statement).result = .ok t ∧ (∃ c ∈ t.columns, c.autoIncrement = true) ∧
      singleKey? (fragmentsOf statement) = none ∧ t.primaryLines .mysql = [] := by
  intro statement id t
  have h : (read statement).result = .ok t := by decide +kernel
  have hcounting : ∃ c ∈ t.columns, c.autoIncrement = true := ⟨id, List.mem_singleton_self id, rfl⟩
  have hkeys : t.primaryKey = none ∧ t.compositeKey = [] := ⟨rfl, rfl⟩
  obtain ⟨hiff, hlines⟩ := read_unkeyed_iff h hcounting
  exact ⟨h, hcounting, (hiff.1 hkeys).1, (hlines .mysql).2 hkeys⟩

/-- The unique key of one column keeps the other from becoming the primary key. -/
theorem read_unkeyed_unique :
    let statement : Text := "CREATE TABLE t (id SERIAL, email VARCHAR(100), UNIQUE KEY (email))"
    ∃ t, (read statement).result = .ok t ∧ (∃ c ∈ t.columns, c.autoIncrement = true) ∧
      t.primaryKey = none ∧ t.compositeKey = [] := by
  intro statement
  let id : Column := { name := "id", typeName := "SERIAL", autoIncrement := true }
  let email : Column :=
    { name := "email", typeName := "VARCHAR", length := "100", key := true, nullable := false }
  refine ⟨{ name := "t", columns := [id, email] }, ?_, ⟨id, List.mem_cons_self, rfl⟩, rfl, rfl⟩
  decide +kernel

end TableDialects.Table
