import TableDialects.Proofs.Report.Outcomes
import TableDialects.Proofs.Table.Splitting

/-!
# Stable scripts

The script that a dialect writes for legible tables is read back. It is written again as it was,
just if the dialect has room to write the types.
-/
namespace TableDialects

namespace Table

section
variable {d : Dialect} {t : Table} {ts : List Table}

/-- What a dialect writes for legible tables is read back table by table. -/
theorem ofScript_renderAll (h : ∀ t ∈ ts, t.Legible d) (l : Layout) :
    Report.ofScript (renderAll d l ts) =
      Report.ofOutcomes 0 (ts.map fun t => ⟨.ok (t.reread d), t.problems d⟩) := by
  rw [Report.ofScript, split_renderAll h, List.map_map]
  exact congrArg _ (List.map_congr_left fun t ht => (h t ht).read_source l)

theorem tables_ofScript (h : ∀ t ∈ ts, t.Legible d) (l : Layout) :
    (Report.ofScript (renderAll d l ts)).tables = ts.map (reread d) := by
  rw [ofScript_renderAll h, Report.tables_ofOutcomes, List.filterMap_map]
  exact congrFun (List.filterMap_eq_map (f := reread d)) ts

/-- A column of a composite key is in a key. -/
theorem Legible.key_of_mem (h : t.Legible d) {c : Column} (hc : c ∈ t.columns)
    (hn : c.name ∈ t.compositeKey) : c.key = true := by
  have hkeyed : Keyed t.columns c.name := by
    rcases h.keys with ⟨-, hk⟩ | ⟨-, hk | ⟨-, hk⟩⟩
    · exact absurd hn (by simp [hk])
    · exact absurd hn (by simp [hk])
    · exact hk c.name hn
  obtain ⟨e, he, hname, hkey⟩ := hkeyed
  have hfind := find?_isNamed h.distinct he
  rw [hname, find?_isNamed h.distinct hc] at hfind
  exact Option.some.inj hfind ▸ hkey

/-- The dialect has room to write the types of the columns. -/
def Fits (d : Dialect) (t : Table) : Prop := ∀ c ∈ t.columns, c.Fits d

/-- The line of the composite key, if there is one. -/
def keyLines (d : Dialect) (t : Table) : List Text :=
  if t.compositeKey.isEmpty then []
  else ["PRIMARY KEY (".toList ++ Text.join ", " (t.compositeKey.map d.identifier) ++ [')']]

private theorem render_eq (d : Dialect) (l : Layout) (t : Table) :
    t.render d l =
      "CREATE TABLE ".toList ++ d.identifier t.baseName ++ " (".toList ++ l.lineEnding.text ++
        Text.join (',' :: l.lineEnding.text)
          (t.columns.map (fun c => List.replicate l.indent ' ' ++ c.render d (t.isPrimary c.name)) ++
            (t.keyLines d).map (List.replicate l.indent ' ' ++ ·)) ++
        l.lineEnding.text ++ ");".toList := by
  have hlines : (t.renderLines d).map (List.replicate l.indent ' ' ++ ·) =
      t.columns.map (fun c => List.replicate l.indent ' ' ++ c.render d (t.isPrimary c.name)) ++
        (t.keyLines d).map (List.replicate l.indent ' ' ++ ·) := by
    rw [renderLines, List.map_append, List.map_map]
    rfl
  rw [← hlines]
  rfl

/-- A table that is read back is written as before, if it fits. -/
theorem Legible.render_reread (h : t.Legible d) (l : Layout) :
    Text.Narrows (t.Fits d) ((t.reread d).render d l) (t.render d l) := by
  have hcolumn : ∀ c ∈ t.columns, Text.Narrows (c.Fits d)
      (List.replicate l.indent ' ' ++
        (c.reread d (t.isPrimary c.name) (t.isPrimary c.name || t.compositeKey.contains c.name)).render
          d (t.isPrimary c.name))
      (List.replicate l.indent ' ' ++ c.render d (t.isPrimary c.name)) := by
    refine fun c hc => (Column.render_reread (h.columns c hc) fun hkey => ?_).append_left _
    rcases Bool.or_eq_true_iff.1 hkey with hp | hn
    · exact .inl hp
    · exact .inr (h.key_of_mem hc (List.contains_iff_mem.1 hn))
  have hbase : (t.reread d).baseName = t.baseName := rfl
  have hprimary : (t.reread d).isPrimary = t.isPrimary := rfl
  have hkeys : (t.reread d).keyLines d = t.keyLines d := rfl
  rw [render_eq, render_eq, hbase, hprimary, hkeys, reread, List.map_map]
  exact (((Text.Narrows.join _ _ hcolumn).append_left _).append_right _).append_right _

theorem renderAll_reread (h : ∀ t ∈ ts, t.Legible d) (l : Layout) :
    Text.Narrows (∀ t ∈ ts, t.Fits d) (renderAll d l (ts.map (reread d))) (renderAll d l ts) := by
  have htables := Text.Narrows.join (l.lineEnding.text ++ l.lineEnding.text) [] fun t ht =>
    (h t ht).render_reread l
  rw [List.append_nil, List.append_nil] at htables
  rw [renderAll, renderAll, List.map_map]
  exact htables

/-- What a dialect writes is stable: it is read back and written again as it was, just if every
type fits. -/
theorem renderAll_ofScript_renderAll_iff (h : ∀ t ∈ ts, t.Legible d) (l : Layout) :
    renderAll d l (Report.ofScript (renderAll d l ts)).tables = renderAll d l ts ↔
      ∀ t ∈ ts, t.Fits d := by
  rw [tables_ofScript h]
  exact (renderAll_reread h l).eq_iff

/-- Keywords as the names of a table and of its columns, a type of two words, an enumeration and a
literal with a quote, a semicolon and a line break. -/
theorem renderAll_ofScript_renderAll_keywords :
    let index : Column :=
      { name := "INDEX", typeName := "tinyint", length := "4", key := true, nullable := false }
    let constraint : Column :=
      { name := "CONSTRAINT", typeName := "double precision", unsigned := true, key := true
        defaultValue := some "NULL" }
    let delimiter : Column :=
      { name := "delimiter", typeName := "ENUM", values := some ["a;", "'b'"]
        defaultValue := some "'it''s;\n-- late'", comment := some "\\" }
    let t : Table :=
      { name := "KEY", columns := [index, constraint, delimiter]
        compositeKey := ["CONSTRAINT", "INDEX"] }
    (∀ u ∈ [t], u.Legible .sqlite) ∧ (∀ u ∈ [t], u.Fits .sqlite) ∧
      renderAll .sqlite {} (Report.ofScript (renderAll .sqlite {} [t])).tables =
        renderAll .sqlite {} [t] := by
  intro index constraint delimiter t
  have hindex : index.type? = some (.integer .tiny (some 4)) := by decide
  have hconstraint : constraint.type? = some .double := by decide
  have hdelimiter : delimiter.type? = some (.enumeration ["a;", "'b'"]) := by decide
  have hdefault : "'it''s;\n-- late'".toList = (DefaultPhrase.literal "it's;\n-- late").text ∧
      (DefaultPhrase.literal "it's;\n-- late").Plain :=
    ⟨by decide, ⟨by decide, by decide⟩, by decide⟩
  have hname : ∀ n ∈ ["KEY", "INDEX", "CONSTRAINT", "delimiter"],
      tokenize n.toList = [⟨[], n.toList, .word n.toList⟩] := by decide +kernel
  have hcolumns : ∀ c ∈ t.columns, c.Legible .sqlite := by
    refine List.forall_mem_cons.2 ⟨?_, List.forall_mem_cons.2 ⟨?_, List.forall_mem_singleton.2 ?_⟩⟩
    · exact {
        name := hname "INDEX" (by simp)
        type := by rw [hindex]; rfl
        values := nofun
        default := nofun
        comment := nofun }
    · exact {
        name := hname "CONSTRAINT" (by simp)
        type := by rw [hconstraint]; rfl
        values := nofun
        default := fun v h => .inl (Option.some.inj h).symm
        comment := nofun }
    · exact {
        name := hname "delimiter" (by simp)
        type := by rw [hdelimiter]; rfl
        values := nofun
        default := fun v h => .inr ⟨_, hdefault.2, (Option.some.inj h).symm.trans hdefault.1⟩
        comment := nofun }
  have hlegible : ∀ u ∈ [t], u.Legible .sqlite := List.forall_mem_singleton.2 {
    name := hname "KEY" (by simp)
    unqualified := by decide
    ne_nil := by simp [t]
    distinct := by
      change List.Pairwise _ _
      decide
    columns := hcolumns
    keys := by
      refine .inr ⟨rfl, .inr ⟨by decide, ?_⟩⟩
      refine List.forall_mem_cons.2 ⟨⟨constraint, ?_⟩, List.forall_mem_singleton.2 ⟨index, ?_⟩⟩
      · exact ⟨by simp [t], rfl, rfl⟩
      · exact ⟨by simp [t], rfl, rfl⟩
    counting := nofun }
  have hfits : ∀ u ∈ [t], u.Fits .sqlite := by
    refine List.forall_mem_singleton.2 (List.forall_mem_cons.2 ⟨?_, List.forall_mem_cons.2
      ⟨?_, List.forall_mem_singleton.2 ?_⟩⟩) <;> rintro type htype
    · exact Option.some.inj (hindex.symm.trans htype) ▸ trivial
    · exact Option.some.inj (hconstraint.symm.trans htype) ▸ trivial
    · exact Option.some.inj (hdelimiter.symm.trans htype) ▸ fun _ =>
        show 0 < ColumnType.enumerationWidth ["a;", "'b'"] by decide
  exact ⟨hlegible, hfits, (renderAll_ofScript_renderAll_iff hlegible {}).2 hfits⟩

/-- A column that is an enumeration of one value. -/
def enumerationOf (value : Text) : Column :=
  { name := "c", typeName := "enum", values := some [value] }

private theorem type?_enumerationOf (value : Text) :
    (enumerationOf value).type? = some (.enumeration [value]) :=
  ColumnType.ofSource?_of_mem (e := ("enum", fun q => .enumeration q.values))
    (by simp [ColumnType.vocabulary])
    (show ColumnType.plainName "enum" = "enum".toList by decide) [] [value]

private theorem legible_enumerationOf (value : Text) :
    Legible .sqlite { name := "t", columns := [enumerationOf value] } where
  name := show tokenize "t" = [⟨[], "t".toList, .word "t"⟩] by decide +kernel
  unqualified := show '.' ∉ "t".toList by decide
  ne_nil := List.cons_ne_nil _ _
  distinct := List.pairwise_singleton _ _
  columns := List.forall_mem_singleton.2 {
    name := show tokenize "c" = [⟨[], "c".toList, .word "c"⟩] by decide +kernel
    type := by
      rw [type?_enumerationOf]
      rfl
    values := nofun
    default := nofun
    comment := nofun }
  keys := .inr ⟨rfl, .inl rfl⟩
  counting := nofun

private theorem render_enumerationOf {value : Text}
    (hwidth : ColumnType.enumerationWidth [value] = 0) :
    (enumerationOf value).render .sqlite false = "c NVARCHAR(0) NULL".toList := by
  have htype : (enumerationOf value).renderType .sqlite = "NVARCHAR(0)".toList := by
    rw [Column.renderType, type?_enumerationOf]
    change Dialect.sized "NVARCHAR" (some (ColumnType.enumerationWidth [value])) = _
    rw [hwidth]
    decide
  rw [Column.render, htype]
  rfl

private theorem enumerationWidth_replicate :
    ColumnType.enumerationWidth [List.replicate 4294967294 'a'] = 0 := by
  rw [ColumnType.enumerationWidth, List.map_singleton, List.length_replicate]
  decide

/-- The width of an enumeration is a number of 32 bits. One that wraps around to zero is written and
not read back. -/
theorem renderAll_ofScript_renderAll_ne_of_wide :
    let t : Table := { name := "t", columns := [enumerationOf (List.replicate 4294967294 'a')] }
    (∀ u ∈ [t], u.Legible .sqlite) ∧
      renderAll .sqlite {} [t] = "CREATE TABLE t (\r\n    c NVARCHAR(0) NULL\r\n);".toList ∧
      renderAll .sqlite {} (Report.ofScript (renderAll .sqlite {} [t])).tables ≠
        renderAll .sqlite {} [t] := by
  have hwidth := enumerationWidth_replicate
  generalize List.replicate 4294967294 'a' = value at hwidth ⊢
  intro t
  have hlegible : ∀ u ∈ [t], u.Legible .sqlite :=
    List.forall_mem_singleton.2 (legible_enumerationOf value)
  refine ⟨hlegible, ?_, fun he => ?_⟩
  · have hline : t.renderLines .sqlite = ["c NVARCHAR(0) NULL".toList] :=
      congrArg (fun line => [line]) (render_enumerationOf hwidth)
    have hbase : t.baseName = "t".toList :=
      baseName_of_unqualified (show '.' ∉ "t".toList by decide)
    unfold renderAll render
    rw [List.map_singleton, hline, hbase]
    decide +kernel
  · rw [tables_ofScript hlegible, (renderAll_reread hlegible {}).eq_iff] at he
    have hfits : 0 < ColumnType.enumerationWidth [value] :=
      he t List.mem_cons_self _ List.mem_cons_self _ (type?_enumerationOf value) (by decide)
    exact absurd hwidth (Nat.ne_of_gt hfits)

end

end Table

end TableDialects
