import TableDialects.Proofs.Table.Keys

/-!
# Assembling tables

Columns of different names and a key over some of them are assembled into a table with just these
columns and this key.
-/
namespace TableDialects.Table

def columnFragments (cs : List (Column × Bool)) : List Fragment :=
  cs.map fun p => .column p.1 p.2

def keyFragments (keys : List Text) : List Fragment :=
  if keys.isEmpty then [] else [.primaryKey keys]

private theorem columnsOf_keys (known : List Column) (keys : List Text) :
    columnsOf known (keyFragments keys) = [] := by
  unfold keyFragments
  split <;> rfl

/-- No column of another name is left out. -/
theorem columnsOf_append {known : List Column} {cs : List (Column × Bool)} {fs : List Fragment}
    (h : Distinct ((known ++ cs.map (·.1)).map (·.name)))
    (hf : ∀ known, columnsOf known fs = []) :
    columnsOf known (columnFragments cs ++ fs) = cs := by
  unfold columnFragments
  induction cs generalizing known with
  | nil => exact hf known
  | cons p cs ih =>
    have hnew : hasColumn known p.1.name = false := by
      refine List.any_eq_false.2 fun c hc => ?_
      rw [List.map_append, Distinct, List.pairwise_append] at h
      have := h.2.2 c.name (List.mem_map_of_mem hc) p.1.name (by simp)
      simpa [Column.isNamed] using this
    rw [List.map_cons, List.cons_append, columnsOf, hnew, if_neg Bool.false_ne_true, ih]
    simpa using h

theorem same_self (n : Text) : Text.same n n = true := by
  simp [Text.same]

/-- Of distinct names no two are equal up to case. -/
theorem Distinct.eq_of_same {names : List Text} (h : Distinct names) {m n : Text} (hm : m ∈ names)
    (hn : n ∈ names) (hs : Text.same m n = true) : m = n := by
  induction names with
  | nil => exact absurd hm (by simp)
  | cons k names ih =>
    rw [Distinct, List.pairwise_cons] at h
    rcases List.mem_cons.1 hm with rfl | hm'
    · rcases List.mem_cons.1 hn with rfl | hn'
      · rfl
      · exact absurd hs (by simp [h.1 n hn'])
    · rcases List.mem_cons.1 hn with rfl | hn'
      · have hcomm : Text.same n m = Text.same m n := by simp [Text.same, eq_comm]
        exact absurd (hcomm.trans hs) (by simp [h.1 m hm'])
      · exact ih h.2 hm' hn'

/-- A name that is that of a column marks this column alone. -/
theorem any_isNamed {cs : List Column} (h : Distinct (cs.map (·.name))) {names : List Text}
    (hn : ∀ n ∈ names, n ∈ cs.map (·.name)) {c : Column} (hc : c ∈ cs) :
    (names.any fun n => c.isNamed n) = decide (c.name ∈ names) := by
  rw [Bool.eq_iff_iff, List.any_eq_true, decide_eq_true_iff]
  constructor
  · rintro ⟨n, hmem, hcn⟩
    rwa [Distinct.eq_of_same h (List.mem_map_of_mem hc) (hn n hmem) hcn]
  · intro hmem
    exact ⟨c.name, hmem, same_self c.name⟩

private theorem knownNames_of_forall {names : List Text} {t : Table}
    (h : Distinct (t.columns.map (·.name))) (hn : ∀ n ∈ names, n ∈ t.columns.map (·.name)) :
    t.knownNames names = names := by
  induction names with
  | nil => rfl
  | cons n names ih =>
    obtain ⟨c, hc, rfl⟩ := List.mem_map.1 (hn n List.mem_cons_self)
    have hf : t.find? c.name = some c := find?_isNamed h hc
    rw [knownNames, List.filterMap_cons, hf]
    exact congrArg _ (ih fun m hm => hn m (List.mem_cons_of_mem _ hm))

/-- A table in which a column counts up by itself only if there is a key. -/
theorem addCountingKey_of_key {t : Table}
    (h : (∃ c ∈ t.columns, c.autoIncrement = true) → t.columns.any (·.key) = true) :
    t.addCountingKey = t := by
  unfold addCountingKey
  split
  · next hk =>
    have hany : t.columns.any (·.key) = false := by
      simp only [Bool.and_eq_true, Bool.not_eq_true'] at hk
      exact hk.2
    split
    · next c hc =>
      have hkey := h ⟨c, List.mem_of_find?_eq_some hc, List.find?_some hc⟩
      exact absurd (hany.symm.trans hkey) Bool.false_ne_true
    · rfl
  · rfl

/-- Either columns carry the primary key by themselves or a list of names is the key. -/
structure KeyedBy (keys : List Text) (cs : List (Column × Bool)) : Prop where
  distinct : Distinct (cs.map (·.1.name))
  fresh : ∀ p ∈ cs, p.1.key = false
  known : ∀ n ∈ keys, n ∈ cs.map (·.1.name)
  alternative : keys = [] ∨ 2 ≤ keys.length ∧ ∀ p ∈ cs, p.2 = false
  counting : (∃ p ∈ cs, p.1.autoIncrement = true) → keys ≠ [] ∨ ∃ p ∈ cs, p.2 = true

/-- A column once its table has its keys. -/
def settle (keys : List Text) (p : Column × Bool) : Column :=
  { p.1 with
    key := p.2 || keys.contains p.1.name
    nullable := p.1.nullable && !(p.2 || keys.contains p.1.name) }

section
variable {keys : List Text} {cs : List (Column × Bool)}

private theorem foldl_addConstraint_columns (cs : List (Column × Bool)) (t : Table) :
    (columnFragments cs).foldl addConstraint t = t := by
  induction cs with
  | nil => rfl
  | cons p cs ih => exact ih

/-- The columns with the keys that they carry by themselves. -/
def carried (cs : List (Column × Bool)) : List Column :=
  cs.map fun p => { p.1 with key := p.1.key || p.2 }

def inlineNames (cs : List (Column × Bool)) : List Text := (cs.filter (·.2)).map (·.1.name)

private theorem names_carried (cs : List (Column × Bool)) :
    (carried cs).map (·.name) = cs.map (·.1.name) := by
  simp [carried, Function.comp_def]

variable (h : KeyedBy keys cs)
include h

/-- The constraint marks just the columns of the key. -/
theorem foldl_addConstraint (name : Text) :
    (columnFragments cs ++ keyFragments keys).foldl addConstraint
        { name, columns := carried cs } =
      { name, compositeKey := keys,
        columns := (carried cs).map fun c =>
          { c with key := c.key || decide (c.name ∈ keys) } } := by
  rw [List.foldl_append, foldl_addConstraint_columns]
  rcases h.alternative with rfl | ⟨hk, -⟩
  · simp [keyFragments]
  · have hd : Distinct ((carried cs).map (·.name)) := names_carried cs ▸ h.distinct
    have hn : ∀ n ∈ keys, n ∈ (carried cs).map (·.name) := names_carried cs ▸ h.known
    have hknown := @knownNames_of_forall keys { name, columns := carried cs } hd hn
    have hmarked : (carried cs).map (marked keys) =
        (carried cs).map fun c => { c with key := c.key || decide (c.name ∈ keys) } := by
      refine List.map_congr_left fun c hc => ?_
      rw [marked, any_isNamed hd hn hc]
    obtain ⟨m, n, ns, rfl⟩ : ∃ m n ns, keys = m :: n :: ns := by
      rcases keys with _ | ⟨m, _ | ⟨n, ns⟩⟩
      · simp at hk
      · simp at hk
      · exact ⟨m, n, ns, rfl⟩
    change addConstraint _ (.primaryKey (m :: n :: ns)) = _
    rw [knownNames] at hknown
    have hfold := @foldl_markKey { name, columns := carried cs } hd (m :: n :: ns)
    simp only [addConstraint, hknown, hfold, hmarked]

/-- Without keys over several columns the primary key is the one that a column carries. -/
theorem head?_inlineNames (hk : keys ≠ []) : (inlineNames cs).head? = none := by
  obtain ⟨-, hp⟩ := h.alternative.resolve_left hk
  have hf : cs.filter (·.2) = [] := List.filter_eq_nil_iff.2 fun p hm => by simp [hp p hm]
  rw [inlineNames, hf]
  rfl

private theorem any_key (hc : ∃ p ∈ cs, p.1.autoIncrement = true) :
    ((carried cs).map fun c => { c with key := c.key || decide (c.name ∈ keys) }).any (·.key) =
      true := by
  rw [List.any_eq_true]
  rcases h.counting hc with hk | ⟨p, hp, hcarried⟩
  · obtain ⟨n, hn⟩ := List.exists_mem_of_ne_nil keys hk
    obtain ⟨c, hc, rfl⟩ := List.mem_map.1 (names_carried cs ▸ h.known n hn)
    exact ⟨_, List.mem_map_of_mem hc, by simp [hn]⟩
  · exact ⟨_, List.mem_map_of_mem (List.mem_map_of_mem hp), by simp [hcarried]⟩

private theorem addInlineKey_carried (name : Text) (columns : List Column) :
    addInlineKey (inlineNames cs) { name, columns, compositeKey := keys } =
      { name, columns, primaryKey := (inlineNames cs).head?, compositeKey := keys } := by
  by_cases hk : keys = []
  · simp [addInlineKey, hk]
  · simp [addInlineKey, hk, head?_inlineNames h hk]

/-- Columns and the key over them make up their table. -/
theorem assemble_columns (name : Text) (hne : cs ≠ []) :
    assemble name (columnFragments cs ++ keyFragments keys) =
      .ok { name, columns := cs.map (settle keys), primaryKey := (inlineNames cs).head?,
            compositeKey := keys } := by
  have hcolumns : columnsOf [] (columnFragments cs ++ keyFragments keys) = cs := by
    refine columnsOf_append ?_ fun known => columnsOf_keys known keys
    simpa [Function.comp_def] using h.distinct
  have hempty : cs.isEmpty = false := by simpa using hne
  have hstart : cs.map (fun p => { p.1 with key := p.1.key || p.2 }) = carried cs := rfl
  have hinline : (cs.filter (·.2)).map (·.1.name) = inlineNames cs := rfl
  have hcounting : ∀ primaryKey, addCountingKey
      { name, primaryKey, compositeKey := keys,
        columns := (carried cs).map fun c => { c with key := c.key || decide (c.name ∈ keys) } } =
      { name, primaryKey, compositeKey := keys,
        columns := (carried cs).map fun c =>
          { c with key := c.key || decide (c.name ∈ keys) } } := by
    refine fun _ => addCountingKey_of_key fun hc => any_key h ?_
    obtain ⟨c, hc, ha⟩ := hc
    obtain ⟨c', hc', rfl⟩ := List.mem_map.1 hc
    obtain ⟨p, hp, rfl⟩ := List.mem_map.1 hc'
    exact ⟨p, hp, ha⟩
  have hsettled : (carried cs).map (fun c => { c with
      key := c.key || decide (c.name ∈ keys)
      nullable := c.nullable && !(c.key || decide (c.name ∈ keys)) }) = cs.map (settle keys) := by
    rw [carried, List.map_map]
    refine List.map_congr_left fun p hp => ?_
    simp [settle, h.fresh p hp]
  simp only [assemble, hcolumns, hempty, Bool.false_eq_true, if_false, hstart, hinline,
    foldl_addConstraint h, addInlineKey_carried h, hcounting, requireKeys, List.map_map,
    Function.comp_def]
  rw [← hsettled]

end

end TableDialects.Table
