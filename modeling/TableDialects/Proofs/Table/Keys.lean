import TableDialects.Proofs.Table.WellFormed
import Mathlib.Data.List.Induction

/-!
# Columns and keys of a table

Which of the columns among its fragments a table has, which of them are in a key and what its
primary key is, said apart from the passes that settle it.
-/
namespace TableDialects

/-- The names in a key constraint. -/
def Fragment.keyNames : Fragment → List Text
  | .primaryKey names => names
  | .uniqueKey names => names
  | _ => []

namespace Table

/-- The columns among the fragments, each with whether it carries a primary key. -/
def columnFragments? (fs : List Fragment) : List (Column × Bool) :=
  fs.filterMap fun
    | .column c inlinePrimary => some (c, inlinePrimary)
    | _ => none

/-- The columns among the fragments, less those with the name of an earlier one. -/
def declared (fs : List Fragment) : List (Column × Bool) :=
  (columnFragments? fs).eraseDupsBy fun later earlier => earlier.1.isNamed later.1.name

/-- The lists of names in the primary key constraints. -/
def primaryLists (fs : List Fragment) : List (List Text) :=
  fs.filterMap fun
    | .primaryKey names => some names
    | _ => none

section
variable (fs : List Fragment)

/-- The columns that the names of a constraint stand for, spelled as they are declared. -/
def declaredNames (names : List Text) : List Text :=
  names.filterMap fun name =>
    ((declared fs).find? fun p => p.1.isNamed name).map fun p => p.1.name

/-- Whether a column carries a primary key or a key constraint names it. -/
def isDeclaredKey (p : Column × Bool) : Bool :=
  p.2 || (fs.flatMap Fragment.keyNames).any fun name => p.1.isNamed name

/-- The name of the first column that carries a primary key. -/
def inlineKey? : Option Text := ((declared fs).find? fun p => p.2).map fun p => p.1.name

/-- The first column that counts up by itself, in case no column is declared a key. -/
def countingKey? : Option (Column × Bool) :=
  if (declared fs).any (isDeclaredKey fs) then none
  else (declared fs).find? fun p => p.1.autoIncrement

/-- Whether a column is in a key in the end. -/
def isKey (p : Column × Bool) : Bool := isDeclaredKey fs p || countingKey? fs == some p

/-- The table has the columns that the fragments declare and the keys that they settle. With more
than one primary key constraint nothing is said of the primary key. -/
structure Assembled (t : Table) : Prop where
  columns : t.columns = (declared fs).map fun p =>
    { p.1 with key := isKey fs p, nullable := p.1.nullable && !isKey fs p }
  /-- A primary key constraint over one column. -/
  single : ∀ name known, primaryLists fs = [[name]] → declaredNames fs [name] = [known] →
    t.primaryKey = some known ∧ t.compositeKey = []
  /-- A primary key constraint with several names, one of them at least that of a column. -/
  several : ∀ names, primaryLists fs = [names] → 2 ≤ names.length → declaredNames fs names ≠ [] →
    t.primaryKey = none ∧ t.compositeKey = declaredNames fs names
  /-- No primary key constraint over any column. -/
  otherwise : (primaryLists fs).length ≤ 1 → (∀ names ∈ primaryLists fs, declaredNames fs names = []) →
    t.primaryKey = (inlineKey? fs).or ((countingKey? fs).map fun p => p.1.name) ∧
      t.compositeKey = []

end

private theorem columnsOf_eq (known : List Column) (fs : List Fragment) :
    columnsOf known fs =
      ((columnFragments? fs).filter fun p => !hasColumn known p.1.name).eraseDupsBy
        fun later earlier => earlier.1.isNamed later.1.name := by
  fun_induction columnsOf known fs with
  | case1 known => rfl
  | case2 known c p fs h ih => simpa [columnFragments?, h] using ih
  | case3 known c p fs h ih =>
    have hrest : ((columnFragments? fs).filter fun q => !hasColumn known q.1.name).filter
          (fun q => !c.isNamed q.1.name) =
        (columnFragments? fs).filter fun q => !hasColumn (known ++ [c]) q.1.name := by
      rw [List.filter_filter]
      refine List.filter_congr fun q _ => ?_
      simp [hasColumn, Bool.and_comm]
    rw [ih, ← hrest]
    simp [columnFragments?, h, List.eraseDupsBy_cons]
  | case4 known f fs hf ih =>
    cases f with
    | column c p => exact absurd rfl (hf c p)
    | _ => simpa [columnFragments?] using ih

theorem columnsOf_nil (fs : List Fragment) : columnsOf [] fs = declared fs := by
  simp [columnsOf_eq, declared, hasColumn]

private theorem declared_eq_nil {fs : List Fragment} :
    declared fs = [] ↔ ∀ c inlinePrimary, .column c inlinePrimary ∉ fs := by
  constructor
  · intro h c p hmem
    have hcolumn : (c, p) ∈ columnFragments? fs := List.mem_filterMap.2 ⟨_, hmem, rfl⟩
    rw [declared] at h
    cases hcs : columnFragments? fs with
    | nil => simp [hcs] at hcolumn
    | cons d ds => simp [hcs, List.eraseDupsBy_cons] at h
  · intro h
    have hnil : columnFragments? fs = [] := by
      refine List.filterMap_eq_nil_iff.2 fun f hmem => ?_
      cases f with
      | column c p => exact absurd hmem (h c p)
      | _ => rfl
    rw [declared, hnil]
    rfl

/-- A column of one of the names belongs to a key. -/
def marked (names : List Text) (c : Column) : Column :=
  { c with key := c.key || names.any fun n => c.isNamed n }

@[simp] theorem marked_nil : marked [] = id := by
  funext c
  simp [marked]

private theorem marked_append (ms ns : List Text) (c : Column) :
    marked ns (marked ms c) = marked (ms ++ ns) c := by
  simp [marked, Column.isNamed, Bool.or_assoc]

theorem names_map_marked (names : List Text) (cs : List Column) :
    (cs.map (marked names)).map (·.name) = cs.map (·.name) := by
  simp [marked, Function.comp_def]

theorem same_comm (a b : Text) : Text.same a b = Text.same b a := by
  simp [Text.same, eq_comm]

private theorem same_of_same {a b c : Text} (h : Text.same a b = true) :
    Text.same a c = Text.same b c := by
  simp only [Text.same, beq_iff_eq] at h ⊢
  rw [h]

/-- Of distinct names just one is that of the marked column. -/
theorem modifyFirst_isNamed {cs : List Column} (h : Distinct (cs.map (·.name))) (n : Text) :
    modifyFirst (Column.isNamed n) (fun c => { c with key := true }) cs = cs.map (marked [n]) := by
  induction cs with
  | nil => rfl
  | cons c cs ih =>
    rw [List.map_cons, Distinct, List.pairwise_cons] at h
    by_cases hc : c.isNamed n = true
    · have hrest : cs.map (marked [n]) = cs := by
        refine (List.map_congr_left fun d hd => ?_).trans (List.map_id cs)
        have hne : Text.same c.name d.name = false := h.1 d.name (List.mem_map_of_mem hd)
        rw [same_of_same hc, same_comm] at hne
        simp [marked, Column.isNamed, hne]
      simp [modifyFirst, hc, hrest, marked]
    · simp [modifyFirst, hc, ih h.2, marked]

theorem foldl_markKey {t : Table} (h : Distinct (t.columns.map (·.name))) (names : List Text) :
    names.foldl markKey t = { t with columns := t.columns.map (marked names) } := by
  induction names generalizing t with
  | nil => simp
  | cons n names ih =>
    have hn : markKey t n = { t with columns := t.columns.map (marked [n]) } := by
      rw [markKey, modify, modifyFirst_isNamed h]
    have hd : Distinct ((markKey t n).columns.map (·.name)) := names_markKey t n ▸ h
    rw [List.foldl_cons, ih hd, hn, List.map_map]
    simp only [Function.comp_def, marked_append, List.singleton_append]

/-- The names of the columns decide which names are known. -/
theorem knownNames_eq (t : Table) (names : List Text) :
    t.knownNames names =
      names.filterMap fun n => (t.columns.map (·.name)).find? fun m => Text.same m n := by
  simp only [knownNames, find?, List.find?_map]
  rfl

/-- A name is known under the spelling of its column. -/
theorem marked_knownNames {t : Table} {c : Column} (hc : c ∈ t.columns) (names : List Text) :
    marked (t.knownNames names) c = marked names c := by
  have h : (t.knownNames names).any (fun n => c.isNamed n) = names.any fun n => c.isNamed n := by
    rw [Bool.eq_iff_iff, List.any_eq_true, List.any_eq_true]
    constructor
    · rintro ⟨m, hm, hcm⟩
      obtain ⟨n, hn, hf⟩ := List.mem_filterMap.1 hm
      obtain ⟨d, hd : t.columns.find? (Column.isNamed n) = some d, rfl⟩ :=
        Option.map_eq_some_iff.1 hf
      have hdn : d.isNamed n = true := List.find?_some hd
      exact ⟨n, hn, (same_of_same hcm).trans hdn⟩
    · rintro ⟨n, hn, hcn⟩
      obtain ⟨d, hd : t.columns.find? (Column.isNamed n) = some d⟩ :=
        Option.isSome_iff_exists.1 (List.find?_isSome.2 ⟨c, hc, hcn⟩)
      have hdn : d.isNamed n = true := List.find?_some hd
      refine ⟨d.name, List.mem_filterMap.2 ⟨n, hn, by rw [find?, hd]; rfl⟩, ?_⟩
      simp only [Column.isNamed, Text.same, beq_iff_eq] at hcn hdn ⊢
      rw [hcn, hdn]
  simp only [marked, h]

/-- The names of the last list of several names. -/
def lastSeveral (lists : List (List Text)) : List Text :=
  (lists.reverse.find? fun names => 2 ≤ names.length).getD []

/-- The last list of a single name, if no list of several names follows. -/
def lastSingle (lists : List (List Text)) : List Text :=
  ((lists.reverse.takeWhile fun names => names.length < 2).find? (!·.isEmpty)).getD []

theorem lastSeveral_concat (lists : List (List Text)) (names : List Text) :
    lastSeveral (lists ++ [names]) = if 2 ≤ names.length then names else lastSeveral lists := by
  by_cases h : 2 ≤ names.length
  · simp [lastSeveral, h]
  · simp [lastSeveral, h]

theorem lastSingle_concat (lists : List (List Text)) (names : List Text) :
    lastSingle (lists ++ [names]) =
      if 2 ≤ names.length then [] else if names = [] then lastSingle lists else names := by
  rw [lastSingle, List.reverse_concat, List.takeWhile_cons]
  by_cases h : 2 ≤ names.length
  · have hlt : ¬names.length < 2 := by omega
    rw [if_pos h, if_neg (by rwa [decide_eq_true_iff])]
    rfl
  · have hlt : names.length < 2 := by omega
    rw [if_neg h, if_pos (by rwa [decide_eq_true_iff])]
    cases names with
    | nil => rfl
    | cons n names => rfl

private theorem lastSeveral_mem (lists : List (List Text)) :
    lastSeveral lists = [] ∨ lastSeveral lists ∈ lists := by
  rw [lastSeveral]
  cases h : lists.reverse.find? fun names => 2 ≤ names.length with
  | none => exact .inl rfl
  | some names => exact .inr (List.mem_reverse.1 (List.mem_of_find?_eq_some h))

private theorem lastSingle_mem (lists : List (List Text)) :
    lastSingle lists = [] ∨ lastSingle lists ∈ lists := by
  rw [lastSingle]
  cases h : (lists.reverse.takeWhile fun names => names.length < 2).find? (!·.isEmpty) with
  | none => exact .inl rfl
  | some names =>
    have hmem := (List.takeWhile_prefix _).subset (List.mem_of_find?_eq_some h)
    exact .inr (List.mem_reverse.1 hmem)

section
variable (fs : List Fragment)

/-- The columns of the last primary key constraint over several names. -/
def severalKey : List Text := declaredNames fs (lastSeveral (primaryLists fs))

/-- The column of the last primary key constraint over one name, if none over several follows. -/
def singleKey? : Option Text := (declaredNames fs (lastSingle (primaryLists fs))).head?

end

private theorem columns_addConstraint {t : Table} (h : Distinct (t.columns.map (·.name)))
    (f : Fragment) : (t.addConstraint f).columns = t.columns.map (marked f.keyNames) := by
  cases f with
  | primaryKey names =>
    have hmarked : (t.addConstraint (.primaryKey names)).columns =
        ((t.knownNames names).foldl markKey t).columns := by
      rcases names with _ | ⟨n, _ | ⟨m, ns⟩⟩ <;> rfl
    rw [hmarked, foldl_markKey h]
    exact List.map_congr_left fun c hc => marked_knownNames hc names
  | uniqueKey names => rw [addConstraint, foldl_markKey h, Fragment.keyNames]
  | column c p => simp [addConstraint, Fragment.keyNames]
  | ignored => simp [addConstraint, Fragment.keyNames]

private theorem columns_foldl_addConstraint {t : Table} (h : Distinct (t.columns.map (·.name)))
    (fs : List Fragment) :
    (fs.foldl addConstraint t).columns = t.columns.map (marked (fs.flatMap Fragment.keyNames)) := by
  induction fs generalizing t with
  | nil => simp
  | cons f fs ih =>
    have hd : Distinct ((t.addConstraint f).columns.map (·.name)) := by
      rwa [columns_addConstraint h, names_map_marked]
    rw [List.foldl_cons, ih hd, columns_addConstraint h, List.map_map]
    simp only [Function.comp_def, marked_append, List.flatMap_cons]

private theorem names_addConstraint {t : Table} (h : Distinct (t.columns.map (·.name)))
    (f : Fragment) : (t.addConstraint f).columns.map (·.name) = t.columns.map (·.name) := by
  rw [columns_addConstraint h, names_map_marked]

/-- Only a primary key constraint bears on the primary key. -/
theorem keys_addConstraint {t : Table} (h : Distinct (t.columns.map (·.name))) {f : Fragment}
    (hf : primaryLists [f] = []) :
    (t.addConstraint f).primaryKey = t.primaryKey ∧
      (t.addConstraint f).compositeKey = t.compositeKey := by
  cases f with
  | primaryKey names => exact absurd hf (by simp [primaryLists])
  | uniqueKey names =>
    rw [addConstraint, foldl_markKey h]
    exact ⟨rfl, rfl⟩
  | _ => exact ⟨rfl, rfl⟩

private theorem names_foldl_addConstraint {t : Table} (h : Distinct (t.columns.map (·.name)))
    (fs : List Fragment) :
    (fs.foldl addConstraint t).columns.map (·.name) = t.columns.map (·.name) := by
  rw [columns_foldl_addConstraint h, names_map_marked]

private theorem knownNames_congr {t u : Table} (h : t.columns.map (·.name) = u.columns.map (·.name))
    (names : List Text) : t.knownNames names = u.knownNames names := by
  rw [knownNames_eq, knownNames_eq, h]

/-- What one more constraint makes of the primary key. -/
theorem keys_addPrimaryKey {t : Table} (h : Distinct (t.columns.map (·.name)))
    (names : List Text) :
    (t.addConstraint (.primaryKey names)).primaryKey =
        (if 2 ≤ names.length then none
          else if names = [] then t.primaryKey else (t.knownNames names).head?) ∧
      (t.addConstraint (.primaryKey names)).compositeKey =
        if 2 ≤ names.length then t.knownNames names else t.compositeKey := by
  have hmarked : ∀ ns : List Text, (ns.foldl markKey t).primaryKey = t.primaryKey ∧
      (ns.foldl markKey t).compositeKey = t.compositeKey := by
    intro ns
    rw [foldl_markKey h]
    exact ⟨rfl, rfl⟩
  rcases names with _ | ⟨n, _ | ⟨m, ns⟩⟩
  · exact hmarked []
  · exact ⟨rfl, (hmarked _).2⟩
  · constructor
    · simp [addConstraint]
    · simp [addConstraint, knownNames]

/-- The constraints settle the primary key by the last of each kind. -/
theorem keys_foldl_addConstraint {t : Table} (h : Distinct (t.columns.map (·.name)))
    (hp : t.primaryKey = none) (hc : t.compositeKey = []) (fs : List Fragment) :
    (fs.foldl addConstraint t).primaryKey =
        (t.knownNames (lastSingle (primaryLists fs))).head? ∧
      (fs.foldl addConstraint t).compositeKey = t.knownNames (lastSeveral (primaryLists fs)) := by
  induction fs using List.reverseRecOn with
  | nil => exact ⟨hp, hc⟩
  | append_singleton fs f ih =>
    have hnames := names_foldl_addConstraint h fs
    have hd : Distinct ((fs.foldl addConstraint t).columns.map (·.name)) := hnames ▸ h
    have hlists : primaryLists (fs ++ [f]) = primaryLists fs ++ primaryLists [f] :=
      List.filterMap_append
    rw [List.foldl_append, List.foldl_cons, List.foldl_nil, hlists]
    by_cases hf : ∃ names, f = .primaryKey names
    · obtain ⟨names, rfl⟩ := hf
      have hkeys := keys_addPrimaryKey hd names
      rw [knownNames_congr hnames, ih.1, ih.2] at hkeys
      change _ = (t.knownNames (lastSingle (_ ++ [names]))).head? ∧
        _ = t.knownNames (lastSeveral (_ ++ [names]))
      rw [hkeys.1, hkeys.2, lastSingle_concat, lastSeveral_concat]
      constructor
      · split
        · rfl
        · split <;> rfl
      · split <;> rfl
    · have hnil : primaryLists [f] = [] := by
        cases f with
        | primaryKey names => exact absurd ⟨names, rfl⟩ hf
        | _ => rfl
      have hkeys := keys_addConstraint hd hnil
      rw [hnil, List.append_nil, hkeys.1, hkeys.2]
      exact ih

/-- The change of the first column that `p` picks, in a list without duplicates. -/
theorem modifyFirst_map {ds : List (Column × Bool)} (hd : ds.Nodup) (g : Column × Bool → Column)
    (p : Column → Bool) (f : Column → Column) :
    modifyFirst p f (ds.map g) =
      ds.map fun d => if ds.find? (fun d => p (g d)) = some d then f (g d) else g d := by
  induction ds with
  | nil => rfl
  | cons d ds ih =>
    obtain ⟨hd, hds⟩ := List.nodup_cons.1 hd
    by_cases hp : p (g d) = true
    · have hrest : ∀ e ∈ ds, d ≠ e := fun e he hde => hd (hde ▸ he)
      simp +contextual [modifyFirst, hp, hrest]
    · have hne : ds.find? (fun d => p (g d)) ≠ some d := fun hf => hd (List.mem_of_find?_eq_some hf)
      simp [modifyFirst, hp, ih hds, hne]

/-- A column once it is settled whether it is in a key. -/
def keyed (inKey : Column × Bool → Bool) (p : Column × Bool) : Column :=
  { p.1 with key := inKey p }

section
variable {fs : List Fragment}

private theorem columns_withDeclaredKeys {name : Text}
    (hf : ∀ c p, .column c p ∈ fs → c.key = false) :
    (withDeclaredKeys name fs).columns = (declared fs).map (keyed (isDeclaredKey fs)) := by
  have hcolumns : (withDeclaredKeys name fs).columns =
      (fs.foldl addConstraint (start name fs)).columns := by
    rw [withDeclaredKeys, addInlineKey]
    split <;> rfl
  rw [hcolumns, columns_foldl_addConstraint distinct_start, start, List.map_map, columnsOf_nil]
  refine List.map_congr_left fun p hp => ?_
  have hfresh : p.1.key = false := hf p.1 p.2 (mem_columnsOf (columnsOf_nil fs ▸ hp))
  simp [marked, keyed, isDeclaredKey, hfresh, Column.isNamed]

private theorem nodup_of_distinct {ds : List (Column × Bool)} (h : Distinct (ds.map (·.1.name))) :
    ds.Nodup := by
  rw [Distinct, List.pairwise_map] at h
  refine h.imp fun {p q} hpq he => ?_
  rw [he, Text.same, beq_self_eq_true] at hpq
  exact Bool.false_ne_true hpq.symm

/-- The first column that counts up becomes a key if there is no other key. -/
theorem modifyFirst_counting (hd : (declared fs).Nodup)
    (hany : ¬(declared fs).any (isDeclaredKey fs) = true) {q : Column × Bool}
    (hq : countingKey? fs = some q) :
    modifyFirst (·.autoIncrement) (fun c => { c with key := true })
        ((declared fs).map (keyed (isDeclaredKey fs))) =
      (declared fs).map (keyed (isKey fs)) := by
  have hcounting : (declared fs).find? (fun p => (keyed (isDeclaredKey fs) p).autoIncrement) =
      countingKey? fs := by
    rw [countingKey?, if_neg hany]
    rfl
  rw [modifyFirst_map hd, hcounting, hq]
  refine List.map_congr_left fun p _ => ?_
  by_cases hp : q = p <;> simp [keyed, isKey, hq, hp]

/-- Once the declared keys are there, only a table without any gets another. -/
theorem addCountingKey_eq {t : Table} (h : t.Coherent)
    (hc : t.columns = (declared fs).map (keyed (isDeclaredKey fs))) :
    t.addCountingKey = { t with
      columns := (declared fs).map (keyed (isKey fs))
      primaryKey := t.primaryKey.or ((countingKey? fs).map fun p => p.1.name) } := by
  have hkey : t.columns.any (·.key) = (declared fs).any (isDeclaredKey fs) := by
    simp [hc, keyed, Function.comp_def]
  have hsame : countingKey? fs = none →
      (declared fs).map (keyed (isKey fs)) = t.columns := by
    intro hn
    simp [hc, keyed, isKey, hn]
  by_cases hany : (declared fs).any (isDeclaredKey fs) = true
  · have hn : countingKey? fs = none := if_pos hany
    simp [addCountingKey, hkey, hany, hn, hsame hn]
  · have hprimary : t.primaryKey = none := by
      by_contra hp
      obtain ⟨n, hn⟩ := Option.ne_none_iff_exists'.1 hp
      obtain ⟨c, hmem, -, hck⟩ := h.primary n hn
      exact hany (hkey ▸ List.any_eq_true.2 ⟨c, hmem, hck⟩)
    have hfind : t.columns.find? (·.autoIncrement) =
        (countingKey? fs).map (keyed (isDeclaredKey fs)) := by
      rw [hc, List.find?_map, countingKey?, if_neg hany]
      rfl
    have hcondition : (t.primaryKey.isNone && !t.columns.any (·.key)) = true := by
      simp [hprimary, hkey, hany]
    rw [addCountingKey, if_pos hcondition, hfind]
    cases hq : countingKey? fs with
    | none => simp [hsame hq]
    | some q =>
      have hnodup : (declared fs).Nodup := by
        refine nodup_of_distinct ?_
        simpa [hc, keyed, Function.comp_def] using h.distinct
      have hcolumns := modifyFirst_counting hnodup hany hq
      rw [← hc] at hcolumns
      simp [hcolumns, hprimary, keyed]

private theorem name_foldl_addConstraint {t : Table} (h : Distinct (t.columns.map (·.name)))
    (fs : List Fragment) : (fs.foldl addConstraint t).name = t.name := by
  induction fs generalizing t with
  | nil => rfl
  | cons f fs ih =>
    have hf : (t.addConstraint f).name = t.name := by
      cases f with
      | primaryKey names =>
        have hm : ((t.knownNames names).foldl markKey t).name = t.name := by rw [foldl_markKey h]
        rcases names with _ | ⟨n, _ | ⟨m, ns⟩⟩ <;> exact hm
      | uniqueKey names => rw [addConstraint, foldl_markKey h]
      | _ => rfl
    rw [List.foldl_cons, ih (names_addConstraint h f ▸ h), hf]

private theorem knownNames_start (name : Text) (fs : List Fragment) (names : List Text) :
    (start name fs).knownNames names = declaredNames fs names := by
  rw [knownNames_eq, names_start, columnsOf_nil]
  simp only [declaredNames, List.find?_map]
  rfl

private theorem head?_inline (fs : List Fragment) :
    (((columnsOf [] fs).filter (·.2)).map (·.1.name)).head? = inlineKey? fs := by
  rw [List.head?_map, List.head?_filter, columnsOf_nil, inlineKey?]

/-- The primary key of a table in which no constraint names one. -/
theorem withDeclaredKeys_eq {name : Text} {known : Option Text × List Text}
    (hp : (fs.foldl addConstraint (start name fs)).primaryKey = known.1)
    (hc : (fs.foldl addConstraint (start name fs)).compositeKey = known.2) :
    (withDeclaredKeys name fs).primaryKey =
        (if known.2 = [] then known.1.or (inlineKey? fs) else known.1) ∧
      (withDeclaredKeys name fs).compositeKey = known.2 := by
  obtain ⟨primary, composite⟩ := known
  rw [withDeclaredKeys, addInlineKey, hp, hc, head?_inline]
  cases primary <;> cases composite <;> simp [hp, hc]

theorem declared_ne_nil {name : Text} {t : Table} (h : assemble name fs = .ok t) :
    declared fs ≠ [] := by
  intro hnil
  rw [assemble, columnsOf_nil, hnil] at h
  cases h

section
variable {name : Text} (hf : ∀ c p, .column c p ∈ fs → c.Typed ∧ c.key = false)
  (hne : declared fs ≠ [])
include hf hne

private theorem assemble_eq : assemble name fs = .ok (requireKeys { withDeclaredKeys name fs with
      columns := (declared fs).map (keyed (isKey fs))
      primaryKey := (withDeclaredKeys name fs).primaryKey.or
        ((countingKey? fs).map fun p => p.1.name) }) := by
  have hcolumns := @columns_withDeclaredKeys fs name fun c p h => (hf c p h).2
  have hcoherent : (withDeclaredKeys name fs).Coherent :=
    coherent_withDeclaredKeys (fun c p h => (hf c p h).1) (columnsOf_nil fs ▸ hne)
  have hempty : (columnsOf [] fs).isEmpty = false := by simpa [columnsOf_nil] using hne
  rw [← addCountingKey_eq hcoherent hcolumns]
  simp only [assemble, hempty, Bool.false_eq_true, if_false]
  rfl

/-- No column counts for a key next to a key over several columns. -/
theorem countingKey?_of_composite (hc : (withDeclaredKeys name fs).compositeKey ≠ []) :
    countingKey? fs = none := by
  have hcolumns := @columns_withDeclaredKeys fs name fun c p h => (hf c p h).2
  have hcoherent : (withDeclaredKeys name fs).Coherent :=
    coherent_withDeclaredKeys (fun c p h => (hf c p h).1) (columnsOf_nil fs ▸ hne)
  obtain ⟨n, hn⟩ := List.exists_mem_of_ne_nil _ hc
  obtain ⟨c, hmem, -, hk⟩ := hcoherent.composite n hn
  rw [hcolumns] at hmem
  obtain ⟨p, hp, rfl⟩ := List.mem_map.1 hmem
  exact if_pos (List.any_eq_true.2 ⟨p, hp, hk⟩)

end

section
variable {name : Text} (hf : ∀ c p, .column c p ∈ fs → c.Typed ∧ c.key = false)
include hf

/-- The primary key of a table, whatever the number of its constraints. -/
theorem keys_assemble {t : Table} (h : assemble name fs = .ok t) :
    t.compositeKey = severalKey fs ∧
      t.primaryKey = (singleKey? fs).or (if severalKey fs = [] then
        (inlineKey? fs).or ((countingKey? fs).map fun p => p.1.name) else none) := by
  have hne := declared_ne_nil h
  have hkeys := keys_foldl_addConstraint (@distinct_start name fs) rfl rfl fs
  rw [knownNames_start, knownNames_start] at hkeys
  obtain ⟨hprimary, hcomposite⟩ :=
    @withDeclaredKeys_eq fs name (singleKey? fs, severalKey fs) hkeys.1 hkeys.2
  obtain rfl : _ = t := Except.ok.inj ((assemble_eq hf hne).symm.trans h)
  refine ⟨hcomposite, ?_⟩
  simp only [requireKeys, hprimary]
  by_cases hs : severalKey fs = []
  · simp [hs, Option.or_assoc]
  · have hnone := @countingKey?_of_composite fs name hf hne (by rwa [hcomposite])
    simp [hs, hnone]

theorem assembled (hne : declared fs ≠ []) :
    ∃ t, assemble name fs = .ok t ∧ t.name = name ∧ Assembled fs t := by
  obtain ⟨hc, hp⟩ := keys_assemble hf (assemble_eq hf hne)
  refine ⟨_, assemble_eq hf hne, ?_, ?_, ?_, ?_, ?_⟩
  · have hname := name_foldl_addConstraint (@distinct_start name fs) fs
    simp only [requireKeys, withDeclaredKeys, addInlineKey]
    split <;> exact hname
  · simp [requireKeys, keyed, Function.comp_def]
  · intro n m hlists hknown
    have hsingle : singleKey? fs = some m := by
      rw [singleKey?, hlists]
      exact congrArg List.head? hknown
    have hseveral : severalKey fs = [] := by
      rw [severalKey, hlists]
      rfl
    exact ⟨by rw [hp, hsingle, Option.some_or], hc.trans hseveral⟩
  · intro names hlists htwo hknown
    have hsingle : singleKey? fs = none := by
      rw [singleKey?, hlists, ← List.nil_append [names], lastSingle_concat, if_pos htwo]
      rfl
    have hseveral : severalKey fs = declaredNames fs names := by
      rw [severalKey, hlists, ← List.nil_append [names], lastSeveral_concat, if_pos htwo]
    rw [hsingle, hseveral, if_neg hknown] at hp
    exact ⟨hp, hc.trans hseveral⟩
  · intro _ hknown
    have hnone : ∀ names, names = [] ∨ names ∈ primaryLists fs → declaredNames fs names = [] := by
      rintro names (rfl | hnames)
      · rfl
      · exact hknown names hnames
    have hsingle : singleKey? fs = none := congrArg List.head? (hnone _ (lastSingle_mem _))
    have hseveral : severalKey fs = [] := hnone _ (lastSeveral_mem _)
    rw [hsingle, if_pos hseveral] at hp
    exact ⟨hp, hc.trans hseveral⟩

end

end

/-- Whatever a statement with a table header holds, its table is the one that its fragments
declare, and there is none just if no fragment is a column. -/
theorem read_assembled {statement name : Text} {ls : List Lexeme}
    (h : header? (tokenize statement) = some (name, ls)) :
    let results := (fragments (Lexeme.groupInner ls)).map fun f => (Fragment.read f).result
    ((read statement).result = .error (.emptyTable name) ↔
        ∀ c inlinePrimary, .ok (.column c inlinePrimary) ∉ results) ∧
      ((∃ c inlinePrimary, .ok (.column c inlinePrimary) ∈ results) →
        ∃ t, (read statement).result = .ok t ∧ t.name = name ∧
          Assembled (results.filterMap (·.toOption)) t) := by
  intro results
  let fs : List Fragment := results.filterMap (·.toOption)
  have hread : (read statement).result = assemble name fs := by
    simp only [read, h, readings, fs, results, List.filterMap_map]
    rfl
  have hmem : ∀ f, f ∈ fs ↔ .ok f ∈ results := by
    intro f
    simp only [fs, List.mem_filterMap, toOption_eq_some_iff, exists_eq_right]
  have htyped : ∀ c p, .column c p ∈ fs → c.Typed ∧ c.key = false := by
    intro c p hc
    obtain ⟨f, -, hf⟩ := List.mem_map.1 ((hmem _).1 hc)
    exact Fragment.read_typed hf
  have hnil : declared fs = [] ↔ ∀ c p, .ok (.column c p) ∉ results := by
    simp only [declared_eq_nil, hmem]
  refine ⟨⟨fun he c p hc => ?_, fun hc => ?_⟩, ?_⟩
  · obtain ⟨t, ht, -⟩ := @assembled fs name htyped fun hn => hnil.1 hn c p hc
    rw [hread, ht] at he
    exact absurd he (by simp)
  · rw [hread, assemble, columnsOf_nil, hnil.2 hc]
    rfl
  · rintro ⟨c, p, hc⟩
    rw [hread]
    exact assembled htyped fun hn => hnil.1 hn c p hc

/-- The second column has the name of the first, and no column has the name in the constraint. -/
theorem read_assembled_twice :
    let statement : Text := "CREATE TABLE t (Id INT AUTO_INCREMENT, id TEXT, UNIQUE KEY (gone))"
    let fs : List Fragment := [
      .column { name := "Id", typeName := "INT", autoIncrement := true } false,
      .column { name := "id", typeName := "TEXT" } false,
      .uniqueKey ["gone"]]
    ∃ t, (read statement).result = .ok t ∧ t.name = "t" ∧ Assembled fs t := by
  intro statement fs
  have hread : (header? (tokenize statement)).map (fun p =>
      (p.1, (fragments (Lexeme.groupInner p.2)).map fun f => (Fragment.read f).result)) =
      some ("t".toList, fs.map .ok) := by
    decide +kernel
  obtain ⟨⟨name, ls⟩, hheader, hresults⟩ := Option.map_eq_some_iff.1 hread
  obtain ⟨rfl, hresults⟩ := Prod.mk.inj hresults
  have hall := (read_assembled hheader).2
  rw [hresults] at hall
  exact hall ⟨_, _, List.mem_cons_self⟩

end Table

end TableDialects
