import TableDialects.Proofs.Table.Stability

/-!
# Faithful tables

MySQL has a clause for everything that a column says. What it writes for a table is read back as
that table, each type spelled as MySQL spells it.
-/
namespace TableDialects

/-- The values of an enumeration. -/
def ColumnType.values? : ColumnType → Option (List Text)
  | enumeration values | set values => some values
  | _ => none

/-- The values that are read back, if any. -/
def TypePhrase.values? (p : TypePhrase) : Option (List Text) :=
  if p.isEnumeration then some p.values else none

namespace TypePhrase

private theorem values?_numbered {word : String} (n : Option Nat) (h : word ∉ ["enum", "set"]) :
    (numbered [word] n).values? = none := by
  simp only [List.mem_cons, List.not_mem_nil, or_false, not_or] at h
  simp [values?, isEnumeration, numbered, h]

private theorem values?_ofDecimal (precision scale : Option UInt32) :
    (ofDecimal "DECIMAL" precision scale).values? = none := by
  have hpair : ∀ p s : UInt32, (ofDecimal "DECIMAL" (some p) (some s)).values? = none := by
    intro p s
    simp [values?, isEnumeration, ofDecimal]
  cases precision with
  | none => exact values?_numbered _ (by decide)
  | some p =>
    cases scale with
    | none => exact values?_numbered _ (by decide)
    | some s => exact hpair p s

private theorem values?_literals {word : String} (values : List Text) (h : word ∈ ["enum", "set"]) :
    ({ words := [word], arguments := some (values.map .literal) } : TypePhrase).values? =
      some values := by
  have hvalues : (values.map Argument.literal).filterMap Argument.value? = values := by
    rw [List.filterMap_map]
    exact List.filterMap_some
  simp only [List.mem_cons, List.not_mem_nil, or_false] at h
  simp [values?, isEnumeration, TypePhrase.values, hvalues, h]

end TypePhrase

open TypePhrase in
/-- In MySQL an enumeration keeps its values, and nothing else has values. -/
theorem Dialect.values?_mysqlPhrase (type : ColumnType) :
    (mysqlPhrase type).values? = type.values? := by
  cases type with
  | integer size width => cases size <;> exact values?_numbered _ (by decide)
  | text size => cases size <;> exact values?_numbered _ (by decide)
  | blob size => cases size <;> exact values?_numbered _ (by decide)
  | decimal precision scale => exact values?_ofDecimal precision scale
  | money => exact values?_ofDecimal _ _
  | binary length varying => cases varying <;> exact values?_numbered _ (by decide)
  | enumeration values => exact values?_literals values (by decide)
  | set values => exact values?_literals values (by decide)
  | _ => exact values?_numbered _ (by decide)

namespace Column

/-- The column with its type spelled as the dialect spells it. -/
def respelled (d : Dialect) (c : Column) : Column :=
  { c with
    typeName := (d.phrase (c.type?.getD .boolean)).typeName
    length := (d.phrase (c.type?.getD .boolean)).length
    values := (c.type?.getD .boolean).values? }

/-- A column of which MySQL leaves nothing out. -/
structure Faithful (c : Column) : Prop where
  required : c.key = true → c.nullable = false
  /-- Only a number is unsigned. -/
  numeric : c.unsigned = true → c.type?.any (·.isNumeric) = true
  /-- The default NULL goes without saying. -/
  default : c.defaultValue ≠ some "NULL".toList

section
variable {d : Dialect} {c : Column} {primary : Bool}

private theorem Faithful.default_eq (hf : c.Faithful) (h : c.Legible d) (hd : d.family = .mysql) :
    (c.defaultPhrase? d).map DefaultPhrase.text = c.defaultValue := by
  cases hv : c.defaultValue with
  | none => rw [defaultPhrase?, hv]; rfl
  | some t =>
    rcases h.default t hv with rfl | ⟨v, hp, rfl⟩
    · exact absurd hv hf.default
    · have hstored : v.stored? d = some v := by
        cases d <;> first | rfl | exact absurd hd (by decide)
      rw [defaultPhrase?_of_text hp hv, hstored, Option.map_some]

/-- What MySQL writes for a column is read back. -/
theorem Faithful.reread_eq (hf : c.Faithful) (h : c.Legible d) (hd : d.family = .mysql)
    (hp : primary = true → c.key = true) : c.reread d primary c.key = c.respelled d := by
  obtain ⟨type, ht⟩ := h.exists_type
  have hnullable : (!(primary || (c.key || !c.nullable)) && !c.key) = c.nullable := by
    cases hk : c.key with
    | true => simp [hf.required hk]
    | false =>
      have hn : primary = false := by
        cases primary with
        | true => exact absurd (hp rfl) (by simp [hk])
        | false => rfl
      simp [hn]
  have hcounting : (c.autoIncrement && d.autoIncrement?.isSome) = c.autoIncrement := by
    cases d <;> first | exact Bool.and_true _ | exact absurd hd (by decide)
  have hvalues : (d.phrase (c.type?.getD .boolean)).values? = (c.type?.getD .boolean).values? := by
    rw [Dialect.phrase, hd]
    exact Dialect.values?_mysqlPhrase _
  have hcomment : (if d.family = .mysql then c.comment else none) = c.comment := if_pos hd
  have hunsigned :
      (c.unsigned && d.supportsUnsigned && c.type?.any (·.isNumeric)) = c.unsigned := by
    have hs : d.supportsUnsigned = true := by simp [Dialect.supportsUnsigned, hd]
    cases hu : c.unsigned with
    | true => simp [hs, hf.numeric hu]
    | false => rfl
  exact Column.mk.injEq .. ▸
    ⟨rfl, rfl, rfl, rfl, hnullable, hf.default_eq h hd, hcounting, hvalues, hcomment, hunsigned⟩

/-- Whether the column is an enumeration without values. -/
def lacksValues (c : Column) : Bool := c.type?.any (·.values? == some [])

private theorem problems_eq (p : ColumnPhrase) :
    p.problems = if p.type.values? == some [] then [.malformedEnumeration p.name] else [] := by
  have hempty : (p.type.isEnumeration && p.type.values.isEmpty) = (p.type.values? == some []) := by
    rw [TypePhrase.values?]
    cases p.type.isEnumeration with
    | false => rfl
    | true => cases p.type.values <;> rfl
  rw [ColumnPhrase.problems, hempty]

/-- In MySQL an enumeration without values is reported. -/
theorem problems_mysql (h : c.Legible d) (hd : d.family = .mysql) (primary : Bool) :
    (c.phrase d primary).problems =
      if c.lacksValues then [.malformedEnumeration c.name] else [] := by
  obtain ⟨type, ht⟩ := h.exists_type
  have hvalues : (c.phrase d primary).type.values? = type.values? := by
    simp only [phrase, ht, Option.getD_some, Dialect.phrase, hd, Dialect.values?_mysqlPhrase]
  rw [problems_eq, hvalues, lacksValues, ht]
  rfl

end

end Column

namespace Table

/-- The table with its types spelled as the dialect spells them. -/
def respelled (d : Dialect) (t : Table) : Table :=
  { t with columns := t.columns.map (Column.respelled d) }

/-- A legible table of which MySQL leaves nothing out. Just the columns of its key are in a key. -/
structure Faithful (d : Dialect) (t : Table) : Prop extends Legible d t where
  key : ∀ c ∈ t.columns, c.key = true ↔ t.primaryKey = some c.name ∨ c.name ∈ t.compositeKey
  column : ∀ c ∈ t.columns, c.Faithful

/-- The enumerations without values, each with the index of its table. -/
def emptyEnumerations (ts : List Table) : List Diagnostic :=
  ts.zipIdx.flatMap fun t => (t.1.columns.filter Column.lacksValues).map fun c =>
    ⟨t.2, .malformedEnumeration c.name⟩

section
variable {d : Dialect} {t : Table} {ts : List Table}

/-- MySQL stores enumerations as they are. -/
theorem fits_of_mysql (t : Table) (hd : d.family = .mysql) : t.Fits d := by
  intro c _ type _
  cases type with
  | enumeration values => exact fun h => absurd hd h
  | set values => exact fun h => absurd hd h
  | _ => trivial

private theorem Faithful.reread_eq (h : t.Faithful d) (hd : d.family = .mysql) :
    t.reread d = t.respelled d := by
  have hcolumns : t.columns.map (fun c => c.reread d (t.isPrimary c.name)
      (t.isPrimary c.name || t.compositeKey.contains c.name)) =
      t.columns.map (Column.respelled d) := by
    refine List.map_congr_left fun c hc => ?_
    have hkey : (t.isPrimary c.name || t.compositeKey.contains c.name) = c.key := by
      rw [Bool.eq_iff_iff, Bool.or_eq_true, h.isPrimary_iff hc, List.contains_iff_mem, h.key c hc]
    have hprimary : t.isPrimary c.name = true → c.key = true := fun hp =>
      (h.key c hc).2 (.inl ((h.isPrimary_iff hc).1 hp))
    rw [hkey]
    exact (h.column c hc).reread_eq (h.columns c hc) hd hprimary
  rw [reread, respelled, hcolumns]

private theorem Legible.problems_mysql (h : t.Legible d) (hd : d.family = .mysql) :
    t.problems d = (t.columns.filter Column.lacksValues).map (.malformedEnumeration ·.name) := by
  have hproblems : ∀ cs : List Column, (∀ c ∈ cs, c.Legible d) →
      cs.flatMap (fun c => (c.phrase d (t.isPrimary c.name)).problems) =
        (cs.filter Column.lacksValues).map (.malformedEnumeration ·.name) := by
    intro cs hcs
    induction cs with
    | nil => rfl
    | cons c cs ih =>
      have hc := Column.problems_mysql (hcs c List.mem_cons_self) hd (t.isPrimary c.name)
      rw [List.flatMap_cons, ih fun e he => hcs e (List.mem_cons_of_mem c he), hc, List.filter_cons]
      split <;> rfl
  exact hproblems t.columns h.columns

private theorem diagnostics_ofScript (h : ∀ t ∈ ts, t.Legible d) (hd : d.family = .mysql)
    (l : Layout) : (Report.ofScript (renderAll d l ts)).diagnostics = emptyEnumerations ts := by
  rw [ofScript_renderAll h, Report.diagnostics_ofOutcomes, List.zipIdx_map, List.flatMap_map]
  refine List.flatMap_congr fun t ht => ?_
  have hproblems := (h t.1 (List.fst_mem_of_mem_zipIdx ht)).problems_mysql hd
  simp only [Report.problemsOf, Prod.map_fst, Prod.map_snd, id_eq, List.append_nil, hproblems,
    List.map_map]
  rfl

/-- What MySQL writes is undone. The tables are read back as they were, each type as MySQL spells
it and stores it, and nothing but enumerations without values is reported. -/
theorem ofScript_renderAll_mysql (h : ∀ t ∈ ts, t.Faithful d) (hd : d.family = .mysql)
    (l : Layout) :
    Report.ofScript (renderAll d l ts) = ⟨ts.map (respelled d), emptyEnumerations ts⟩ ∧
      (∀ t ∈ ts, ∀ c ∈ t.columns, (c.respelled d).type? = c.type?.map d.storedType) ∧
      renderAll d l (ts.map (respelled d)) = renderAll d l ts := by
  have hlegible : ∀ t ∈ ts, t.Legible d := fun t ht => (h t ht).toLegible
  have hreread : ts.map (reread d) = ts.map (respelled d) :=
    List.map_congr_left fun t ht => (h t ht).reread_eq hd
  refine ⟨?_, ?_, ?_⟩
  · have htables := tables_ofScript hlegible l
    have hdiagnostics := diagnostics_ofScript hlegible hd l
    rw [hreread] at htables
    generalize Report.ofScript (renderAll d l ts) = report at htables hdiagnostics
    obtain ⟨tables, diagnostics⟩ := report
    exact Report.mk.injEq .. ▸ ⟨htables, hdiagnostics⟩
  · intro t ht c hc
    have hcolumn := (h t ht).columns c hc
    have htype := @Column.type?_reread d c hcolumn false c.key
    rwa [((h t ht).column c hc).reread_eq hcolumn hd (by simp)] at htype
  · rw [← hreread]
    exact (renderAll_reread hlegible l).same fun t _ => t.fits_of_mysql hd

/-- A backtick and a semicolon in names, a number that counts up, an enumeration without values and
a literal with a comment in it. -/
theorem ofScript_renderAll_mysql_names :
    let number : Column :=
      { name := "a`b;", typeName := "integer", unsigned := true, key := true, nullable := false
        autoIncrement := true }
    let kind : Column :=
      { name := "\\", typeName := "set", values := some [], comment := some "it's" }
    let code : Column :=
      { name := "key", typeName := "uuid", defaultValue := some "'--\n'" }
    let t : Table := { name := "a b", columns := [number, kind, code], primaryKey := some "a`b;" }
    (∀ u ∈ [t], u.Faithful .mysql) ∧ Dialect.mysql.family = .mysql ∧
      Report.ofScript (renderAll .mysql {} [t]) =
        ⟨[{ t with columns :=
            [{ number with typeName := "INT" }, { kind with typeName := "set" },
              { code with typeName := "CHAR", length := "36" }] }],
          [⟨0, .malformedEnumeration "\\"⟩]⟩ := by
  intro number kind code t
  have hnumber : number.type? = some (.integer .int none) := by decide
  have hkind : kind.type? = some (.set []) := by decide
  have hcode : code.type? = some .uuid := by decide
  have hdefault : "'--\n'".toList = (DefaultPhrase.literal "--\n").text ∧
      (DefaultPhrase.literal "--\n").Plain :=
    ⟨by decide, ⟨by decide, by decide⟩, by decide⟩
  have hname : ∀ n ∈ ["a b", "a`b;", "\\", "key"], '\r' ∉ n.toList := by decide
  have hlegible : ∀ c ∈ t.columns, c.Legible .mysql := by
    refine List.forall_mem_cons.2 ⟨?_, List.forall_mem_cons.2 ⟨?_, List.forall_mem_singleton.2 ?_⟩⟩
    · exact {
        name := hname "a`b;" (by simp)
        type := by rw [hnumber]; rfl
        values := fun _ _ hv => absurd hv List.not_mem_nil
        default := nofun
        comment := nofun }
    · exact {
        name := hname "\\" (by simp)
        type := by rw [hkind]; rfl
        values := fun _ _ hv => absurd hv List.not_mem_nil
        default := nofun
        comment := fun _ u h => Option.some.inj h ▸ ⟨by decide, by decide⟩ }
    · exact {
        name := hname "key" (by simp)
        type := by rw [hcode]; rfl
        values := fun _ _ hv => absurd hv List.not_mem_nil
        default := fun v h => .inr ⟨_, hdefault.2, (Option.some.inj h).symm.trans hdefault.1⟩
        comment := nofun }
  have hcolumns : ∀ c ∈ t.columns, c.Faithful := by
    refine List.forall_mem_cons.2 ⟨?_, List.forall_mem_cons.2 ⟨?_, List.forall_mem_singleton.2 ?_⟩⟩
    · exact ⟨fun _ => rfl, fun _ => by rw [hnumber]; rfl, nofun⟩
    · exact ⟨nofun, nofun, nofun⟩
    · exact ⟨nofun, nofun, by decide⟩
  have hfaithful : ∀ u ∈ [t], u.Faithful .mysql := List.forall_mem_singleton.2 {
    name := hname "a b" (by simp)
    unqualified := by decide
    ne_nil := by simp [t]
    distinct := by
      change List.Pairwise _ _
      decide
    columns := hlegible
    keys := .inl ⟨⟨number, by simp [t], rfl⟩, rfl⟩
    counting := fun _ _ => .inl rfl
    key := by decide
    column := hcolumns }
  refine ⟨hfaithful, rfl, (ofScript_renderAll_mysql hfaithful rfl {}).1.trans ?_⟩
  decide

end

end Table

end TableDialects
