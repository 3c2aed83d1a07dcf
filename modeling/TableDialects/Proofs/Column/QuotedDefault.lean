import TableDialects.Proofs.Column.Typed

/-!
# Quoted defaults

A literal is the default of its column as it is written, unless it mentions the next value of a
sequence: then the column counts up by itself and has no default.
-/
namespace TableDialects

open Lexeme

/-- A literal that does not mention the next value of a sequence becomes the default. -/
theorem Draft.setDefault_quoted {c : Column} {s : Text} (hs : '\\' ∉ s)
    (hc : c.defaultValue = none) :
    Draft.setDefault c (quoteLiteral s) =
      { c with
        autoIncrement := c.autoIncrement || Text.holds "nextval" (Text.lower s)
        defaultValue :=
          if Text.holds "nextval" (Text.lower s) then none else some (quoteLiteral s) } := by
  rw [Draft.setDefault, DefaultPhrase.holds_nextval_quoteLiteral,
    DefaultPhrase.normalize_quoteLiteral hs, hc]
  cases Text.holds "nextval" (Text.lower s) with
  | true => simp [← hc]
  | false => simp

namespace Fragment

/-- The clause `DEFAULT` with a literal. -/
def quotedDefault (s : Text) : List Lexeme :=
  [keyword "DEFAULT", ⟨[' '], quoteLiteral s, .quoted '\'' s⟩]

private theorem source_quotedDefault (s : Text) :
    source (quotedDefault s) = " DEFAULT ".toList ++ quoteLiteral s := by
  have hmark : " DEFAULT ".toList = ' ' :: ("DEFAULT".toList ++ [' ']) := by decide
  simp [quotedDefault, keyword, hmark]

private theorem spelled_quotedDefault {s : Text} (hs : '\\' ∉ s) :
    FreeClause.Spelled (.defaultValue (quoteLiteral s)) (quotedDefault s) :=
  .defaultValue (isKeyword_keyword (by decide))
    (.literal isGap_space (.inl rfl) (Token.quotes_doubled (.inr hs)))

private theorem readAll_quotedDefault {s : Text} (hs : '\\' ∉ s) :
    Clause.readAll (quotedDefault s) = [.defaultValue (quoteLiteral s)] := by
  have hread := (spelled_quotedDefault hs).readAll FreeClause.begins_nil
  rwa [List.append_nil, Clause.readAll] at hread

private theorem ends_quotedDefault (s : Text) : TypeSpelling.Ends (quotedDefault s) := by
  intro l hl
  obtain rfl := Option.some.inj hl
  exact ⟨by simp [keyword], by decide⟩

/-- The column that is read has the literal as its default, unless the literal mentions the next
value of a sequence: then the column counts up by itself and has no default. -/
theorem read_typed_quoted {t : TypeSpelling} (h : t.WellFormed) {s : Text} (hs : '\\' ∉ s) :
    ∃ (c : Column) (problems : List Problem),
      read (tokenize ("c".toList ++ source t.lexemes ++ " DEFAULT ".toList ++ quoteLiteral s)) =
        { result := .ok (.column c false), problems } ∧
      c.name = "c".toList ∧ c.typeName = t.typeName ∧ c.length = t.length ∧
      c.autoIncrement =
        (ColumnType.isSerial t.typeName || Text.holds "nextval" (Text.lower s)) ∧
      c.defaultValue =
        if Text.holds "nextval" (Text.lower s) then none else some (quoteLiteral s) := by
  have hname : IsWord "c".toList := by decide
  have hread := read_spelled h (ends_quotedDefault s) (spelled_quotedDefault hs).apart hname
    (by decide)
  obtain ⟨values, problems, hdraft⟩ := Column.draft_eq "c" t.typeName t.length
  rw [readAll_quotedDefault hs, hdraft, source_append, source_quotedDefault, ← List.append_assoc,
    ← List.append_assoc, List.foldl_cons, List.foldl_nil, Draft.add, Draft.finish,
    Draft.setDefault_quoted hs rfl] at hread
  exact ⟨_, _, hread, rfl, rfl, rfl, rfl, rfl⟩

/-- The literal of a text that is no number of a sequence is kept. -/
theorem read_typed_quoted_varchar :
    ∃ (c : Column) (problems : List Problem),
      read (tokenize "c varchar(20) DEFAULT 'it''s'") =
        { result := .ok (.column c false), problems } ∧
      c.name = "c".toList ∧ c.typeName = "varchar".toList ∧ c.length = "20".toList ∧
      c.autoIncrement = false ∧ c.defaultValue = some "'it''s'".toList := by
  have hnumber : Clear [⟨[], "20", .number "20"⟩] [] :=
    ⟨⟨by simp, by decide, .number (by decide) (.whole (List.all_eq_true.1 rfl) rfl)⟩, trivial⟩
  let t : TypeSpelling :=
    { base := "varchar"
      words := [keyword "varchar"]
      arguments := group [] [[⟨[], "20", .number "20"⟩]] [] }
  have ht : t.WellFormed :=
    { words := .word isGap_space ⟨by decide, rfl, rfl⟩
      recognized := by decide
      arguments := .list (by simp) (by simp) (by simpa using ⟨hnumber, rfl⟩)
      zone := .absent
      zoned := by simp [t] }
  exact read_typed_quoted ht (s := "it's") (by decide)

/-- The text `nextval` is not kept, although it stands in quotes. -/
theorem read_quoted_nextval :
    (read (tokenize ("c TEXT DEFAULT ".toList ++ quoteLiteral "nextval"))).result =
      .ok (.column { name := "c", typeName := "TEXT", autoIncrement := true } false) := by
  decide +kernel

end Fragment

end TableDialects
