import TableDialects.Proofs.Script.Column
import TableDialects.Proofs.Table.Keys
import TableDialects.Table.Rendering

/-!
# Types of read columns

The type of each column that is read is known, and a dialect writes for it what it has for the type
name and the qualifier by themselves: the values of an enumeration are the literals of its
qualifier, and a zone goes on with a known name only.
-/
namespace TableDialects

namespace Text

private theorem lowerAscii_lowerAscii (t : Text) : lowerAscii (lowerAscii t) = lowerAscii t := by
  have h : ∀ c : Char, c.toLower.toLower = c.toLower := apply_toLower Char.toLower (by decide)
  simp [lowerAscii, h]

private theorem lowerChar_cases (c : Char) :
    'k' ∈ lowerChar c ∨ '\u0307' ∈ lowerChar c ∨ lowerChar c = [c.toLower] := by
  unfold lowerChar
  split
  · exact .inl List.mem_cons_self
  · split
    · exact .inr (.inl (by simp))
    · exact .inr (.inr rfl)

/-- The Kelvin sign and the dotted capital I apart, lower case is that of ASCII. -/
theorem lower_eq_lowerAscii {t : Text} (hk : 'k' ∉ lower t) (hi : '\u0307' ∉ lower t) :
    lower t = lowerAscii t := by
  induction t with
  | nil => rfl
  | cons c t ih =>
    rw [lower_cons, List.mem_append, not_or] at hk hi
    obtain h | h | h := lowerChar_cases c
    · exact absurd h hk.1
    · exact absurd h hi.1
    · rw [lower_cons, h, ih hk.2 hi.2]
      rfl

/-- Without a k or the dot above, a word that is lower case up to ASCII is that word itself. -/
theorem same_of_same_lower {t w : Text} (hk : 'k' ∉ lowerAscii w) (hi : '\u0307' ∉ lowerAscii w)
    (h : same (lower t) w = true) : same t w = true := by
  have hsame : lowerAscii (lower t) = lowerAscii w := by simpa [same] using h
  rw [← hsame] at hk hi
  have hlower := lower_eq_lowerAscii (fun hm => hk (List.mem_map_of_mem (f := Char.toLower) hm))
    fun hm => hi (List.mem_map_of_mem (f := Char.toLower) hm)
  rw [hlower, lowerAscii_lowerAscii] at hsame
  simpa [same] using hsame

end Text

namespace ColumnType

/-- Whether a name is known depends on nothing but the name. -/
theorem isSome_ofSource? (name length : Text) (values : List Text) :
    (ofSource? name length values).isSome = isRecognized name := by
  rw [isRecognized, ofSource?, ofSource?, Option.isSome_map, Option.isSome_map]

/-- Only an enumeration looks at the values of its qualifier. -/
theorem values_congr_of_mem_vocabulary : ∀ e ∈ vocabulary, e.1 ∈ ["enum", "set"] ∨
    ∀ text values values', e.2 ⟨text, values⟩ = e.2 ⟨text, values'⟩ := by
  simp only [vocabulary, List.forall_mem_cons, Qualifier.length?, Qualifier.precision?,
    Qualifier.scale?, Qualifier.parts]
  simp

private theorem ofSource?_values {name : Text} (h : isEnumeration name = false) (length : Text)
    (values values' : List Text) :
    ofSource? name length values = ofSource? name length values' := by
  rw [ofSource?, ofSource?]
  refine Option.map_congr fun e he => ?_
  refine (values_congr_of_mem_vocabulary e (List.mem_of_find?_eq_some he)).resolve_left ?_ _ _ _
  intro hmem
  have hname := List.find?_some he
  have hany : isEnumeration name = true := List.any_eq_true.2 ⟨e.1, hmem, hname⟩
  exact absurd hany (by simp [h])

end ColumnType

namespace Column

/-- The type name is known, and the values of an enumeration are the literals of its qualifier. -/
structure Mapped (c : Column) : Prop where
  recognized : ColumnType.isRecognized c.typeName = true
  values : c.values.getD [] =
    if ColumnType.isEnumeration c.typeName then stringLiterals c.length else []

variable {c : Column}

private theorem Mapped.type? (h : c.Mapped) :
    c.type? = ColumnType.ofSource? c.typeName c.length (stringLiterals c.length) := by
  rw [Column.type?, h.values]
  split
  · rfl
  · next hn => exact ColumnType.ofSource?_values (by simpa using hn) _ _ _

/-- The name of the type is known, and mapping it gives what is written for the column. -/
theorem Mapped.mapType? (h : c.Mapped) : ∃ type, c.type? = some type ∧
    ∀ d : Dialect, d.mapType? c.typeName c.length = some (d.typeName type) ∧
      c.renderType d = d.typeName type := by
  have hsome : c.type?.isSome = true :=
    (ColumnType.isSome_ofSource? _ _ _).trans h.recognized
  obtain ⟨type, htype⟩ := Option.isSome_iff_exists.1 hsome
  refine ⟨type, htype, fun d => ⟨?_, ?_⟩⟩
  · rw [Dialect.mapType?, ← h.type?, htype, Option.map_some]
  · rw [renderType, htype]

private theorem zone?_mem {ls : List Lexeme} {zone : Text} (h : zone? ls = some zone) :
    zone ∈ [" with time zone".toList, " without time zone".toList] := by
  unfold zone? at h
  split at h
  · split at h
    · split at h
      · cases h
        simp
      · split at h
        · cases h
          simp
        · cases h
    · cases h
  · cases h

/-- A zone goes on with the name of a time, and both together are known. -/
theorem isRecognized_zone {typeName zone : Text} {ls : List Lexeme}
    (h : zoneAfter? typeName ls = some zone) :
    ColumnType.isRecognized (typeName ++ zone) = true := by
  have hknown : ∀ w ∈ ["time", "timestamp"], 'k' ∉ Text.lowerAscii w.toList ∧
      '\u0307' ∉ Text.lowerAscii w.toList ∧
      ∀ z ∈ [" with time zone".toList, " without time zone".toList],
        ColumnType.isRecognized (w.toList ++ z) = true := by
    decide +kernel
  unfold zoneAfter? at h
  split at h
  · next htime =>
    obtain ⟨w, hw, hsame⟩ := List.any_eq_true.1 htime
    obtain ⟨hk, hi, hzones⟩ := hknown w hw
    have hname := Text.same_of_same_lower hk hi hsame
    rw [ColumnType.isRecognized, ColumnType.ofSource?_append hname, ← ColumnType.isRecognized]
    exact hzones zone (zone?_mem h)
  · cases h

private theorem mapped_draft {name typeName length : Text}
    (h : ColumnType.isRecognized typeName = true) :
    (draft name typeName length).column.Mapped := by
  unfold draft
  split
  · next he => exact ⟨h, by simp [he]⟩
  · next he => exact ⟨h, by simp [he]⟩

/-- Clauses bear neither on the name of the type nor on its qualifier nor on the values. -/
theorem Mapped.of_settles {c d : Column} (hs : Settles c d) (hl : d.length = c.length)
    (h : c.Mapped) : d.Mapped := by
  obtain ⟨hrecognized, hvalues⟩ := h
  exact ⟨by rwa [hs.typeName], by rwa [hs.values, hs.typeName, hl]⟩

private theorem mapped_read {name typeName : Text} {ls : List Lexeme}
    (h : ColumnType.isRecognized typeName = true) : (read name typeName ls).column.Mapped := by
  have hclauses : ∀ (ks : List Clause) (d : Draft), d.column.Mapped →
      (ks.foldl Draft.add d).finish.column.Mapped := fun ks d =>
    .of_settles ((settles_foldl ks d).trans (settles_finish _))
      ((length_finish _).trans (length_foldl ks d))
  refine hclauses _ _ (mapped_draft ?_)
  cases hzone : zoneAfter? typeName (ls.drop (Lexeme.leadingGroup ls)) with
  | none => simpa using h
  | some zone => exact isRecognized_zone hzone

end Column

namespace Table

private theorem mapped_fragmentsOf {statement : Text} {c : Column} {p : Bool}
    (h : .column c p ∈ fragmentsOf statement) : c.Mapped := by
  obtain ⟨ls, hread⟩ := exists_read_of_mem_fragmentsOf h
  obtain ⟨name, typeName, following, hrecognized, rfl⟩ := Fragment.exists_column_read hread
  exact Column.mapped_read hrecognized

/-- A column of a table is one of its fragments, up to the keys. -/
theorem exists_fragment {name : Text} {fs : List Fragment} {t : Table}
    (hf : ∀ c p, .column c p ∈ fs → c.Typed ∧ c.key = false) (h : assemble name fs = .ok t)
    {c : Column} (hc : c ∈ t.columns) :
    ∃ d p, .column d p ∈ fs ∧ c = { d with key := c.key, nullable := c.nullable } := by
  obtain ⟨u, hu, -, hassembled⟩ := @assembled fs name hf (declared_ne_nil h)
  obtain rfl : u = t := Except.ok.inj (hu.symm.trans h)
  rw [hassembled.columns, ← columnsOf_nil] at hc
  obtain ⟨q, hq, rfl⟩ := List.mem_map.1 hc
  exact ⟨q.1, q.2, mem_columnsOf hq, rfl⟩

/-- The type of each column that is read is known, and every dialect writes for it what it has for
the name of the type and its qualifier by themselves. -/
theorem read_mapType? {statement : Text} {t : Table} (h : (read statement).result = .ok t)
    {c : Column} (hc : c ∈ t.columns) : ∃ type, c.type? = some type ∧
      ∀ d : Dialect, d.mapType? c.typeName c.length = some (d.typeName type) ∧
        c.renderType d = d.typeName type := by
  obtain ⟨name, hassemble⟩ := exists_assemble h
  obtain ⟨d, p, hd, hcolumn⟩ := exists_fragment (fun _ _ hm => typed_fragmentsOf hm) hassemble hc
  obtain ⟨hrecognized, hvalues⟩ := mapped_fragmentsOf hd
  have hmapped : c.Mapped := by
    rw [hcolumn]
    exact ⟨hrecognized, hvalues⟩
  exact hmapped.mapType?

/-- The values have quotes and a comma in them, and the zone stands behind the length. -/
theorem read_mapType?_zone :
    let statement : Text := "CREATE TABLE t (a `Set` ('x', 'it''s,'), b TIME(6) WITH TIME ZONE)"
    let a : Column :=
      { name := "a", typeName := "Set", length := "'x', 'it''s,'", values := some ["x", "it's,"] }
    let b : Column := { name := "b", typeName := "TIME with time zone", length := "6" }
    (read statement).result = .ok { name := "t", columns := [a, b] } ∧
      (∃ type, a.type? = some type ∧ ∀ d : Dialect,
        d.mapType? a.typeName a.length = some (d.typeName type) ∧
        a.renderType d = d.typeName type) ∧
      ∃ type, b.type? = some type ∧ ∀ d : Dialect,
        d.mapType? b.typeName b.length = some (d.typeName type) ∧
        b.renderType d = d.typeName type := by
  intro statement a b
  have h : (read statement).result = .ok { name := "t", columns := [a, b] } := by decide +kernel
  exact ⟨h, read_mapType? h (by simp), read_mapType? h (by simp)⟩

end Table

end TableDialects
