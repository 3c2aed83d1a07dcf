import TableDialects.Table.Definition
import Mathlib.Data.List.Basic

/-!
# Well-formed tables

Whatever a statement says, the table read from it has columns with distinct names, and its keys
name columns of its own. Names are compared without regard to case but kept as they are declared.
-/
namespace TableDialects

namespace Column

/-- The clauses of a column leave its type alone and never revoke that it counts up by itself. -/
structure Settles (c d : Column) : Prop where
  name : d.name = c.name
  typeName : d.typeName = c.typeName
  values : d.values = c.values
  key : d.key = c.key
  counting : c.autoIncrement = true → d.autoIncrement = true

/-- Values are there just for enumerations, and serial columns count up by themselves. -/
structure Typed (c : Column) : Prop where
  values_iff : c.values.isSome = true ↔ ColumnType.isEnumeration c.typeName = true
  counting : ColumnType.isSerial c.typeName = true → c.autoIncrement = true

structure WellFormed (c : Column) : Prop extends Typed c where
  required : c.key = true → c.nullable = false

namespace Settles

theorem refl (c : Column) : Settles c c := ⟨rfl, rfl, rfl, rfl, id⟩

theorem trans {a b c : Column} (h : Settles a b) (h' : Settles b c) : Settles a c :=
  ⟨h'.name.trans h.name, h'.typeName.trans h.typeName, h'.values.trans h.values,
    h'.key.trans h.key, fun ha => h'.counting (h.counting ha)⟩

private theorem typed {c d : Column} (h : Settles c d) (hc : c.Typed) : d.Typed := by
  constructor
  · rw [h.values, h.typeName]
    exact hc.values_iff
  · intro hs
    rw [h.typeName] at hs
    exact h.counting (hc.counting hs)

end Settles

private theorem settles_setDefault (c : Column) (raw : Text) :
    Settles c (Draft.setDefault c raw) := by
  unfold Draft.setDefault
  split
  · exact ⟨rfl, rfl, rfl, rfl, fun _ => rfl⟩
  · exact ⟨rfl, rfl, rfl, rfl, id⟩

private theorem settles_withUpdate (c : Column) (event : Text) :
    Settles c (Draft.withUpdate c event) := by
  unfold Draft.withUpdate
  split
  · split
    · exact .refl c
    · exact ⟨rfl, rfl, rfl, rfl, id⟩
  · exact .refl c

private theorem settles_add (d : Draft) (k : Clause) : Settles d.column (d.add k).column := by
  cases k with
  | defaultValue raw => exact settles_setDefault d.column raw
  | autoIncrement => exact ⟨rfl, rfl, rfl, rfl, fun _ => rfl⟩
  | _ => exact ⟨rfl, rfl, rfl, rfl, id⟩

theorem settles_foldl (ks : List Clause) (d : Draft) :
    Settles d.column (ks.foldl Draft.add d).column := by
  induction ks generalizing d with
  | nil => exact .refl d.column
  | cons k ks ih => exact (settles_add d k).trans (ih (d.add k))

theorem settles_finish (d : Draft) : Settles d.column d.finish.column := by
  unfold Draft.finish
  split
  · exact settles_withUpdate d.column _
  · exact .refl d.column

private theorem typed_draft (name typeName length : Text) :
    (draft name typeName length).column.Typed := by
  unfold draft
  split
  · next h => exact ⟨by simp [h], id⟩
  · next h => exact ⟨by simp [h], id⟩

private theorem key_draft (name typeName length : Text) :
    (draft name typeName length).column.key = false := by
  unfold draft
  split <;> rfl

/-- A column as it is read has its type settled and no key yet. -/
theorem read_typed (name typeName : Text) (ls : List Lexeme) :
    (read name typeName ls).column.Typed ∧ (read name typeName ls).column.key = false := by
  have h : ∀ (ks : List Clause) (d : Draft),
      Settles d.column (ks.foldl Draft.add d).finish.column :=
    fun ks d => (settles_foldl ks d).trans (settles_finish _)
  unfold read
  exact ⟨(h _ _).typed (typed_draft _ _ _), (h _ _).key.trans (key_draft _ _ _)⟩

end Column

namespace Fragment

theorem ofConstraint_ne_column (ls : List Lexeme) (c : Column) (p : Bool) :
    ofConstraint ls ≠ .column c p := by
  unfold ofConstraint
  split
  · simp
  · split <;> simp

/-- A column among the fragments is one that is read behind a name and a known type. -/
theorem exists_column_read {ls : List Lexeme} {c : Column} {p : Bool}
    (h : (read ls).result = .ok (.column c p)) : ∃ name typeName following,
      ColumnType.isRecognized typeName = true ∧
        (Column.read name typeName following).column = c := by
  unfold read at h
  split at h
  · exact absurd (Except.ok.inj h) (by simp)
  · split at h
    · exact absurd (Except.ok.inj h) (by simp)
    · next name _ =>
      split at h
      · exact absurd (Except.ok.inj h) (ofConstraint_ne_column _ c p)
      · unfold readNamed at h
        split at h
        · next typeName following htype =>
          simp only [Except.ok.injEq, column.injEq] at h
          exact ⟨name, typeName, following, (Option.filter_eq_some_iff.1 htype).2, h.1⟩
        · split at h
          · exact absurd (Except.ok.inj h) (ofConstraint_ne_column _ c p)
          · exact absurd h (by simp)

/-- The columns among the fragments have their types settled. -/
theorem read_typed {ls : List Lexeme} {c : Column} {p : Bool}
    (h : (read ls).result = .ok (.column c p)) : c.Typed ∧ c.key = false := by
  obtain ⟨name, typeName, following, -, rfl⟩ := exists_column_read h
  exact Column.read_typed name typeName following

end Fragment

namespace Table

/-- A column of exactly that name belongs to a key. -/
def Keyed (columns : List Column) (name : Text) : Prop :=
  ∃ c ∈ columns, c.name = name ∧ c.key = true

/-- No two names are equal up to case. -/
def Distinct (names : List Text) : Prop := names.Pairwise fun a b => Text.same a b = false

/-- What holds of a table while its keys are settled. -/
structure Coherent (t : Table) : Prop where
  ne_nil : t.columns ≠ []
  distinct : Distinct (t.columns.map (·.name))
  typed : ∀ c ∈ t.columns, c.Typed
  primary : ∀ p, t.primaryKey = some p → Keyed t.columns p
  composite : ∀ n ∈ t.compositeKey, Keyed t.columns n

structure WellFormed (t : Table) : Prop where
  ne_nil : t.columns ≠ []
  distinct : Distinct (t.columns.map (·.name))
  columns : ∀ c ∈ t.columns, c.WellFormed
  primary : ∀ p, t.primaryKey = some p → Keyed t.columns p
  composite : ∀ n ∈ t.compositeKey, Keyed t.columns n
  counting : (∃ c ∈ t.columns, c.autoIncrement = true) → ∃ c ∈ t.columns, c.key = true

private theorem hasColumn_eq_false {columns : List Column} {name : Text}
    (h : hasColumn columns name = false) :
    ∀ a ∈ columns.map (·.name), Text.same a name = false := by
  intro a ha
  obtain ⟨c, hc, rfl⟩ := List.mem_map.1 ha
  simpa [Column.isNamed] using List.any_eq_false.1 h c hc

private theorem distinct_columnsOf (known : List Column) (fs : List Fragment)
    (h : Distinct (known.map (·.name))) :
    Distinct ((known ++ (columnsOf known fs).map (·.1)).map (·.name)) := by
  fun_induction columnsOf known fs with
  | case1 known => simpa using h
  | case2 known c p fs _ ih => exact ih h
  | case3 known c p fs hc ih =>
    have hn : Distinct ((known ++ [c]).map (·.name)) := by
      rw [List.map_append, Distinct, List.pairwise_append]
      refine ⟨h, by simp, fun a ha b hb => ?_⟩
      obtain rfl : b = c.name := by simpa using hb
      exact hasColumn_eq_false (by simpa using hc) a ha
    simpa using ih hn
  | case4 known f fs _ ih => exact ih h

theorem mem_columnsOf {known : List Column} {fs : List Fragment} {q : Column × Bool}
    (h : q ∈ columnsOf known fs) : .column q.1 q.2 ∈ fs := by
  fun_induction columnsOf known fs with
  | case1 => simp at h
  | case2 known c p fs _ ih => exact List.mem_cons_of_mem _ (ih h)
  | case3 known c p fs _ ih =>
    rcases List.mem_cons.1 h with rfl | h
    · exact List.mem_cons_self
    · exact List.mem_cons_of_mem _ (ih h)
  | case4 known f fs _ ih => exact List.mem_cons_of_mem _ (ih h)

/-- A change that at most makes a column part of a key. -/
def Marks (f : Column → Column) : Prop := ∀ c, ∃ k, f c = { c with key := c.key || k }

theorem marks_key : Marks fun c => { c with key := true } := fun c => ⟨true, by simp⟩

section
variable {f : Column → Column} {p : Column → Bool}

private theorem names_modifyFirst (hf : Marks f) (cs : List Column) :
    (modifyFirst p f cs).map (·.name) = cs.map (·.name) := by
  induction cs with
  | nil => rfl
  | cons c cs ih =>
    obtain ⟨k, hk⟩ := hf c
    by_cases h : p c <;> simp [modifyFirst, h, hk, ih]

private theorem typed_modifyFirst (hf : Marks f) {cs : List Column} (h : ∀ c ∈ cs, c.Typed) :
    ∀ c ∈ modifyFirst p f cs, c.Typed := by
  induction cs with
  | nil => simp [modifyFirst]
  | cons c cs ih =>
    obtain ⟨k, hk⟩ := hf c
    have hc := h c List.mem_cons_self
    have hcs := fun d hd => h d (List.mem_cons_of_mem c hd)
    by_cases hp : p c
    · simp only [modifyFirst, hp, if_true, List.forall_mem_cons, hk]
      exact ⟨⟨hc.values_iff, hc.counting⟩, hcs⟩
    · simpa [modifyFirst, hp] using ⟨hc, ih hcs⟩

private theorem Keyed.modifyFirst (hf : Marks f) {cs : List Column} {n : Text} (h : Keyed cs n) :
    Keyed (modifyFirst p f cs) n := by
  induction cs with
  | nil => exact h
  | cons c cs ih =>
    obtain ⟨k, hk⟩ := hf c
    obtain ⟨d, hd, hn, hkey⟩ := h
    rcases List.mem_cons.1 hd with rfl | hd
    · by_cases hp : p d
      · exact ⟨f d, by simp [Table.modifyFirst, hp], by simp [hk, hn], by simp [hk, hkey]⟩
      · exact ⟨d, by simp [Table.modifyFirst, hp], hn, hkey⟩
    · by_cases hp : p c
      · exact ⟨d, by simp [Table.modifyFirst, hp, hd], hn, hkey⟩
      · obtain ⟨e, he, hne⟩ := ih ⟨d, hd, hn, hkey⟩
        exact ⟨e, by simp [Table.modifyFirst, hp, he], hne⟩

/-- The first column that `p` picks is changed, whatever its name is. -/
theorem keyed_modifyFirst_of_find? {cs : List Column} {c : Column} (h : cs.find? p = some c) :
    Keyed (modifyFirst p (fun c => { c with key := true }) cs) c.name := by
  induction cs with
  | nil => simp at h
  | cons d cs ih =>
    by_cases hp : p d
    · simp only [List.find?_cons, hp, Option.some.injEq] at h
      subst h
      exact ⟨{ d with key := true }, by simp [modifyFirst, hp], rfl, rfl⟩
    · simp only [List.find?_cons, hp] at h
      obtain ⟨e, he, hne⟩ := ih h
      exact ⟨e, by simp [modifyFirst, hp, he], hne⟩

end

theorem find?_isNamed {cs : List Column} (h : Distinct (cs.map (·.name))) {c : Column}
    (hc : c ∈ cs) : cs.find? (Column.isNamed c.name) = some c := by
  induction cs with
  | nil => simp at hc
  | cons d cs ih =>
    rw [List.map_cons, Distinct, List.pairwise_cons] at h
    rcases List.mem_cons.1 hc with rfl | hc
    · simp [Column.isNamed, Text.same]
    · have hd := h.1 c.name (List.mem_map_of_mem hc)
      simpa [Column.isNamed, hd] using ih h.2 hc

namespace Coherent

variable {t : Table}

private theorem modifyFirst {p : Column → Bool} {f : Column → Column} (hf : Marks f)
    (h : t.Coherent) : Coherent { t with columns := Table.modifyFirst p f t.columns } where
  ne_nil := by
    intro hn
    have := congrArg List.length (names_modifyFirst (p := p) hf t.columns)
    rw [show Table.modifyFirst p f t.columns = [] from hn] at this
    exact h.ne_nil (List.eq_nil_of_length_eq_zero (by simpa using this.symm))
  distinct := by
    rw [names_modifyFirst hf]
    exact h.distinct
  typed := typed_modifyFirst hf h.typed
  primary q hq := (h.primary q hq).modifyFirst hf
  composite n hn := (h.composite n hn).modifyFirst hf

private theorem markKey (h : t.Coherent) (n : Text) :
    (t.markKey n).Coherent := h.modifyFirst marks_key

private theorem foldl_markKey (names : List Text) (h : t.Coherent) :
    (names.foldl Table.markKey t).Coherent := by
  induction names generalizing t with
  | nil => exact h
  | cons n names ih => exact ih (h.markKey n)

end Coherent

theorem names_markKey (t : Table) (n : Text) :
    (t.markKey n).columns.map (·.name) = t.columns.map (·.name) :=
  names_modifyFirst marks_key t.columns

private theorem Keyed.foldl_markKey (names : List Text) {t : Table} {n : Text}
    (h : Keyed t.columns n) : Keyed (names.foldl markKey t).columns n := by
  induction names generalizing t with
  | nil => exact h
  | cons m names ih => exact ih (h.modifyFirst marks_key)

/-- Marking the names of columns makes each of them a column with a key. -/
theorem keyed_foldl_markKey {t : Table} (h : t.Coherent) {names : List Text}
    (hn : ∀ n ∈ names, n ∈ t.columns.map (·.name)) :
    ∀ n ∈ names, Keyed (names.foldl markKey t).columns n := by
  induction names generalizing t with
  | nil => simp
  | cons m names ih =>
    intro n hmem
    rcases List.mem_cons.1 hmem with rfl | hmem
    · obtain ⟨c, hc, rfl⟩ := List.mem_map.1 (hn n List.mem_cons_self)
      have := keyed_modifyFirst_of_find? (find?_isNamed h.distinct hc)
      exact Keyed.foldl_markKey names this
    · refine ih (h.markKey m) (fun k hk => ?_) n hmem
      rw [names_markKey]
      exact hn k (List.mem_cons_of_mem m hk)

/-- The columns that the names of a constraint stand for. -/
def knownNames (t : Table) (names : List Text) : List Text :=
  names.filterMap fun n => (t.find? n).map (·.name)

private theorem mem_knownNames {t : Table} {names : List Text} :
    ∀ n ∈ t.knownNames names, n ∈ t.columns.map (·.name) := by
  intro n hn
  obtain ⟨m, -, hm⟩ := List.mem_filterMap.1 hn
  obtain ⟨c, hc, rfl⟩ := Option.map_eq_some_iff.1 hm
  exact List.mem_map_of_mem (List.mem_of_find?_eq_some hc)

private theorem Coherent.addConstraint {t : Table} (h : t.Coherent) (f : Fragment) :
    (t.addConstraint f).Coherent := by
  cases f with
  | primaryKey names =>
    have hm := h.foldl_markKey (t.knownNames names)
    have hk := keyed_foldl_markKey h (@mem_knownNames t names)
    match names with
    | [] => exact hm
    | [n] =>
      refine ⟨hm.ne_nil, hm.distinct, hm.typed, fun p hp => ?_, hm.composite⟩
      exact hk p (List.mem_of_mem_head? hp)
    | m :: n :: names => exact ⟨hm.ne_nil, hm.distinct, hm.typed, nofun, hk⟩
  | uniqueKey names => exact h.foldl_markKey names
  | _ => exact h

private theorem Coherent.foldl_addConstraint (fs : List Fragment) {t : Table} (h : t.Coherent) :
    (fs.foldl Table.addConstraint t).Coherent := by
  induction fs generalizing t with
  | nil => exact h
  | cons f fs ih => exact ih (h.addConstraint f)

private theorem Keyed.addConstraint (f : Fragment) {t : Table} {n : Text} (h : Keyed t.columns n) :
    Keyed (t.addConstraint f).columns n := by
  cases f with
  | primaryKey names =>
    have hm := h.foldl_markKey (t.knownNames names)
    match names with
    | [] => exact hm
    | [n] => exact hm
    | m :: n :: names => exact hm
  | uniqueKey names => exact h.foldl_markKey names
  | _ => exact h

private theorem Keyed.foldl_addConstraint (fs : List Fragment) {t : Table} {n : Text}
    (h : Keyed t.columns n) : Keyed (fs.foldl Table.addConstraint t).columns n := by
  induction fs generalizing t with
  | nil => exact h
  | cons f fs ih => exact ih (h.addConstraint f)

private theorem Coherent.addInlineKey {t : Table} (h : t.Coherent) {names : List Text}
    (hn : ∀ n ∈ names, Keyed t.columns n) : (t.addInlineKey names).Coherent := by
  unfold Table.addInlineKey
  split
  · exact ⟨h.ne_nil, h.distinct, h.typed, fun p hp => hn p (List.mem_of_mem_head? hp),
      h.composite⟩
  · exact h

private theorem Coherent.addCountingKey {t : Table} (h : t.Coherent) :
    t.addCountingKey.Coherent := by
  unfold Table.addCountingKey
  split
  · split
    · next c hc =>
      have hm := h.modifyFirst (p := (·.autoIncrement)) marks_key
      refine ⟨hm.ne_nil, hm.distinct, hm.typed, fun p hp => ?_, hm.composite⟩
      obtain rfl : c.name = p := Option.some.inj hp
      exact keyed_modifyFirst_of_find? hc
    · exact h
  · exact h

/-- After the last pass that sets keys, a table that counts up by itself has one. -/
theorem counting_addCountingKey {t : Table} (h : t.Coherent)
    (hc : ∃ c ∈ t.addCountingKey.columns, c.autoIncrement = true) :
    ∃ c ∈ t.addCountingKey.columns, c.key = true := by
  unfold addCountingKey at hc ⊢
  split
  · split
    · next c hf =>
      obtain ⟨d, hd, -, hk⟩ := keyed_modifyFirst_of_find? hf
      exact ⟨d, hd, hk⟩
    · next hf =>
      rw [if_pos (by assumption), hf] at hc
      obtain ⟨c, hmem, ha⟩ := hc
      exact absurd ha (List.find?_eq_none.1 hf c hmem)
  · next hp =>
    cases hpk : t.primaryKey with
    | some p =>
      obtain ⟨c, hmem, -, hk⟩ := h.primary p hpk
      exact ⟨c, hmem, hk⟩
    | none => simpa [hpk] using hp

private theorem Keyed.requireKeys {t : Table} {n : Text} (h : Keyed t.columns n) :
    Keyed t.requireKeys.columns n := by
  obtain ⟨c, hc, hn, hk⟩ := h
  exact ⟨_, List.mem_map_of_mem hc, hn, hk⟩

/-- Requiring the columns of keys makes a coherent table well-formed. -/
theorem Coherent.wellFormed {t : Table} (h : t.Coherent)
    (hk : (∃ c ∈ t.columns, c.autoIncrement = true) → ∃ c ∈ t.columns, c.key = true) :
    t.requireKeys.WellFormed where
  ne_nil := by simpa [requireKeys] using h.ne_nil
  distinct := by simpa [requireKeys, Function.comp_def] using h.distinct
  columns := by
    intro c hc
    obtain ⟨d, hd, rfl⟩ := List.mem_map.1 hc
    have ht := h.typed d hd
    exact ⟨⟨ht.values_iff, ht.counting⟩, fun hkey => by simp_all⟩
  primary p hp := (h.primary p hp).requireKeys
  composite n hn := (h.composite n hn).requireKeys
  counting := by
    rintro ⟨c, hc, ha⟩
    obtain ⟨d, hd, rfl⟩ := List.mem_map.1 hc
    obtain ⟨e, he, hkey⟩ := hk ⟨d, hd, ha⟩
    exact ⟨_, List.mem_map_of_mem he, hkey⟩

section
variable {name : Text} {fs : List Fragment}

/-- The table before any constraint is applied. -/
def start (name : Text) (fs : List Fragment) : Table :=
  { name, columns := (columnsOf [] fs).map fun q => { q.1 with key := q.1.key || q.2 } }

/-- The table with every key that is declared. -/
def withDeclaredKeys (name : Text) (fs : List Fragment) : Table :=
  addInlineKey (((columnsOf [] fs).filter (·.2)).map (·.1.name))
    (fs.foldl addConstraint (start name fs))

theorem names_start : (start name fs).columns.map (·.name) = (columnsOf [] fs).map (·.1.name) := by
  simp [start, Function.comp_def]

theorem distinct_start : Distinct ((start name fs).columns.map (·.name)) := by
  rw [names_start]
  simpa [Function.comp_def] using distinct_columnsOf [] fs (by simp [Distinct])

variable (hf : ∀ c p, .column c p ∈ fs → c.Typed)
include hf

private theorem coherent_start (hne : columnsOf [] fs ≠ []) : (start name fs).Coherent := by
  refine ⟨by simpa [start] using hne, distinct_start, ?_, by simp [start], by simp [start]⟩
  intro c hc
  obtain ⟨q, hq, rfl⟩ := List.mem_map.1 hc
  have hq := hf q.1 q.2 (mem_columnsOf hq)
  exact ⟨hq.values_iff, hq.counting⟩

theorem coherent_withDeclaredKeys (hne : columnsOf [] fs ≠ []) :
    (withDeclaredKeys name fs).Coherent := by
  refine ((coherent_start hf hne).foldl_addConstraint fs).addInlineKey fun n hn => ?_
  obtain ⟨q, hq, rfl⟩ := List.mem_map.1 hn
  obtain ⟨hq, hp⟩ := List.mem_filter.1 hq
  have hk : Keyed (start name fs).columns q.1.name :=
    ⟨_, List.mem_map_of_mem hq, rfl, by simp [hp]⟩
  exact hk.foldl_addConstraint fs

private theorem assemble_wellFormed {t : Table} (h : assemble name fs = .ok t) : t.WellFormed := by
  simp only [assemble] at h
  split at h
  · exact absurd h (by simp)
  · next hne =>
    obtain rfl := Except.ok.inj h
    have hkeys := @coherent_withDeclaredKeys name fs hf (by simpa using hne)
    exact hkeys.addCountingKey.wellFormed (counting_addCountingKey hkeys)

end

/-- The fragments of a statement that can be read. -/
def fragmentsOf (statement : Text) : List Fragment :=
  match header? (tokenize statement) with
  | none => []
  | some (_, ls) => (readings (Lexeme.groupInner ls)).filterMap fun r => r.result.toOption

theorem toOption_eq_some_iff {r : Except Problem Fragment} {f : Fragment} :
    r.toOption = some f ↔ r = .ok f := by
  cases r <;> simp [Except.toOption]

section
variable {statement : Text}

theorem exists_read_of_mem_fragmentsOf {f : Fragment} (h : f ∈ fragmentsOf statement) :
    ∃ ls, (Fragment.read ls).result = .ok f := by
  cases hheader : header? (tokenize statement) with
  | none => exact absurd h (by simp [fragmentsOf, hheader])
  | some header =>
    simp only [fragmentsOf, hheader] at h
    obtain ⟨r, hr, hok⟩ := List.mem_filterMap.1 h
    obtain ⟨ls, -, rfl⟩ := List.mem_map.1 hr
    exact ⟨ls, toOption_eq_some_iff.1 hok⟩

theorem typed_fragmentsOf {c : Column} {p : Bool} (h : .column c p ∈ fragmentsOf statement) :
    c.Typed ∧ c.key = false := by
  obtain ⟨ls, hread⟩ := exists_read_of_mem_fragmentsOf h
  exact Fragment.read_typed hread

theorem exists_assemble {t : Table} (h : (read statement).result = .ok t) :
    ∃ name, assemble name (fragmentsOf statement) = .ok t := by
  cases hheader : header? (tokenize statement) with
  | none => exact absurd h (by simp [read, hheader])
  | some p => exact ⟨p.1, by simpa [read, fragmentsOf, hheader] using h⟩

theorem wellFormed_of_assemble {name : Text} {t : Table}
    (h : assemble name (fragmentsOf statement) = .ok t) : t.WellFormed :=
  assemble_wellFormed (fun _ _ hc => (typed_fragmentsOf hc).1) h

end

/-- Every table read from a statement is well-formed. -/
theorem read_wellFormed {statement : Text} {t : Table} (h : (read statement).result = .ok t) :
    t.WellFormed := by
  obtain ⟨name, hassemble⟩ := exists_assemble h
  exact wellFormed_of_assemble hassemble

/-- The key is declared in other letters than its columns. -/
theorem read_wellFormed_pairs :
    let statement : Text :=
      "CREATE TABLE pairs (Id SERIAL, kind ENUM('a'), PRIMARY KEY (ID, kind))"
    let t : Table :=
      { name := "pairs"
        columns := [
          { name := "Id", typeName := "SERIAL", key := true, nullable := false,
            autoIncrement := true },
          { name := "kind", typeName := "ENUM", length := "'a'", key := true, nullable := false,
            values := some ["a"] }]
        compositeKey := ["Id", "kind"] }
    (read statement).result = .ok t ∧ t.WellFormed := by
  intro statement t
  have h : (read statement).result = .ok t := by decide +kernel
  exact ⟨h, read_wellFormed h⟩

end Table

end TableDialects
