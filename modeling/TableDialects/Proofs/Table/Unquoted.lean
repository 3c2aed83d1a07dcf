import TableDialects.Proofs.Script.Table
import TableDialects.Proofs.Table.Header
import TableDialects.Proofs.Table.Lettercase
import TableDialects.Proofs.Text.Infix

/-!
# Statements without quotes

The values of an enumeration are literals. Where no quote stands there are none, so no type of a
column depends on the case of a letter.
-/
namespace TableDialects

open Lexeme

/-- No quote and no backtick stands in the text. -/
def Text.Unquoted (t : Text) : Prop := ∀ c ∈ t, Token.isQuote c = false

instance (t : Text) : Decidable t.Unquoted :=
  decidable_of_iff (t.all (!Token.isQuote ·) = true) (by simp [Text.Unquoted])

theorem Text.Unquoted.within {t u : Text} (h : t.Unquoted) (hu : u <:+: t) : u.Unquoted :=
  fun c hc => h c (hu.subset hc)

private theorem Text.Unquoted.append {t u : Text} (h : t.Unquoted) (hu : u.Unquoted) :
    Unquoted (t ++ u) :=
  List.forall_mem_append.2 ⟨h, hu⟩

private theorem Text.unquoted_upperAscii {t : Text} : (upperAscii t).Unquoted ↔ t.Unquoted := by
  simp [Unquoted, upperAscii, Token.isQuote_toUpper]

/-- A literal begins with its quote. -/
theorem Token.token_read_ne_quoted {c : Char} (h : isQuote c = false) (cs : Text) (q : Char)
    (v : Text) : (read c cs).token ≠ .quoted q v := by
  rw [read_of_not_isQuote h, readPlain]
  repeat' split
  all_goals simp

private theorem ne_quoted_of_mem_lex {t : Text} (h : t.Unquoted) (q : Char) (v : Text) :
    ∀ l ∈ (lex t).1, l.token ≠ .quoted q v := by
  fun_induction lex t with
  | case1 => simp
  | case2 t c cs hd r l ih =>
    have hrest : Text.Unquoted (c :: cs) := h.within (hd ▸ List.drop_suffix _ t).isInfix
    have hread : c :: cs = r.text ++ r.rest := Token.source_read c cs
    refine List.forall_mem_cons.2 ⟨Token.token_read_ne_quoted (hrest c List.mem_cons_self) cs q v, ?_⟩
    exact ih ((hread ▸ hrest).within (List.suffix_append _ _).isInfix)

private theorem stringLiterals_of_unquoted {t : Text} (h : t.Unquoted) : stringLiterals t = [] := by
  refine List.filterMap_eq_nil_iff.2 fun l hl => ?_
  have hne := fun q v => ne_quoted_of_mem_lex h q v l hl
  split
  · next q v hl => exact absurd hl (hne q v)
  · rfl

theorem unquoted_source {us ls : List Lexeme} (h : (source ls).Unquoted)
    (hu : us <:+: ls) : (source us).Unquoted :=
  h.within (hu.flatMap fun l => l.gap ++ l.text)

private theorem unquoted_groupText {ls : List Lexeme} (h : (source ls).Unquoted) :
    (groupText ls).Unquoted := by
  have hinner := groupInner_infix ls
  refine (unquoted_source h hinner).append ?_
  cases hl : (ls.take (groupLength ls)).tail.getLast?.filter (·.token = .closeParen) with
  | none => exact List.forall_mem_nil _
  | some l =>
    -- what stands between the last lexeme inside and the closing parenthesis
    have hlast := List.mem_of_getLast? (Option.filter_eq_some_iff.1 hl).1
    have hmem : l ∈ ls := List.mem_of_mem_take (List.mem_of_mem_tail hlast)
    intro c hc
    exact h c (List.mem_flatMap.2 ⟨l, hmem, List.mem_append_left l.text hc⟩)

private theorem unquoted_qualifier {ls : List Lexeme} (h : (source ls).Unquoted) :
    (Column.qualifier ls).Unquoted := by
  rw [Column.qualifier]
  split
  · exact List.forall_mem_nil _
  · exact (unquoted_groupText h).within (Text.infix_trim _)

private theorem ColumnType.upperAscii_of_nil {e : String × (Qualifier → ColumnType)}
    (he : e ∈ vocabulary) {q : Qualifier} (hq : q.values = []) : (e.2 q).upperAscii = e.2 q := by
  obtain ⟨text, values⟩ := q
  obtain rfl : values = [] := hq
  revert e
  simp only [vocabulary, List.forall_mem_cons, upperAscii]
  simp

private theorem ColumnType.ofSource?_nil (name length : Text) :
    (ofSource? name length []).map upperAscii = ofSource? name length [] := by
  rw [ofSource?, Option.map_map]
  exact Option.map_congr fun e he => upperAscii_of_nil (List.mem_of_find?_eq_some he) rfl

private theorem Column.typeFrom?_of_unquoted {ls : List Lexeme} (h : (source ls).Unquoted)
    (typeName : Text) :
    (typeFrom? typeName ls).map ColumnType.upperAscii = typeFrom? typeName ls := by
  rw [typeFrom?, stringLiterals_of_unquoted (unquoted_qualifier h), ite_self]
  exact ColumnType.ofSource?_nil _ _

namespace Fragment

private theorem suffix_of_typeName? {ls : List Lexeme} {p : Text × List Lexeme}
    (h : typeName? ls = some p) : p.2 <:+ ls := by
  cases ls with
  | nil => simp [typeName?] at h
  | cons l ls =>
    rw [typeName?_cons] at h
    obtain ⟨first, -, rfl⟩ := Option.map_eq_some_iff.1 h
    refine List.IsSuffix.trans ?_ (List.suffix_cons l ls)
    split
    · exact List.drop_suffix 1 ls
    · exact List.suffix_refl ls

private theorem typeAfter?_of_unquoted {ls : List Lexeme} (h : (source ls).Unquoted) :
    ∀ t ∈ typeAfter? ls, t.map ColumnType.upperAscii = t := by
  intro t ht
  obtain ⟨p, hp, htype⟩ := Option.map_eq_some_iff.1 ht
  have hsuffix := suffix_of_typeName? (Option.filter_eq_some_iff.1 hp).1
  rw [← htype]
  exact Column.typeFrom?_of_unquoted (unquoted_source h hsuffix.isInfix) p.1

private theorem shape?_of_unquoted {ls : List Lexeme} (h : (source ls).Unquoted) :
    ∀ s ∈ (read ls).shape?, s.2.map ColumnType.upperAscii = s.2 := by
  intro s hs
  cases ls with
  | nil => simp [read, Reading.shape?, shape?, Except.toOption] at hs
  | cons first rest =>
    rw [shape?_read] at hs
    obtain ⟨name, -, hs⟩ := Option.bind_eq_some_iff.1 hs
    split at hs
    · simp at hs
    · obtain ⟨t, ht, rfl⟩ := Option.map_eq_some_iff.1 hs
      exact typeAfter?_of_unquoted
        (unquoted_source h (List.suffix_cons first rest).isInfix) t ht

end Fragment

namespace Table

private theorem distinctShapes_subset (known : List Text) (ss : List (Text × Option ColumnType)) :
    distinctShapes known ss ⊆ ss := by
  induction ss generalizing known with
  | nil => exact List.Subset.refl []
  | cons s ss ih =>
    rw [distinctShapes]
    split
    · exact List.subset_cons_of_subset s (ih known)
    · exact List.cons_subset_cons s (ih _)

/-- The types of the columns. -/
def types (t : Table) : List (Option ColumnType) := t.columns.map Column.type?

/-- Without quotes no type of a column has texts in it. -/
theorem type?_of_unquoted {statement : Text} (h : statement.Unquoted) {t : Table}
    (ht : (read statement).result = .ok t) :
    ∀ c ∈ t.columns, c.type?.map ColumnType.upperAscii = c.type? := by
  have hshape := shape_read statement
  rw [ht, shapeOf?] at hshape
  obtain ⟨p, hp, hfilter⟩ := Option.bind_eq_some_iff.1 hshape.symm
  have hcolumns : distinctShapes [] ((fragments (groupInner p.2)).filterMap fun f =>
      (Fragment.read f).shape?) = t.columns.map Column.shape :=
    congrArg Prod.snd (Option.some.inj (Option.filter_eq_some_iff.1 hfilter).1)
  have hlex : (source (tokenize statement)).Unquoted :=
    h.within ⟨[], (lex statement).2, (Position.source_lex statement).symm⟩
  have hinner := groupInner_infix p.2
  have hbody := hinner.trans (suffix_of_header? hp).isInfix
  -- the shape of a column is that of a fragment, whose lexemes are part of the statement
  intro c hc
  have hmem : c.shape ∈ t.columns.map Column.shape := List.mem_map_of_mem hc
  rw [← hcolumns] at hmem
  obtain ⟨f, hf, hread⟩ := List.mem_filterMap.1 (distinctShapes_subset _ _ hmem)
  have hinfix := (infix_of_mem_fragments hf).trans hbody
  exact Fragment.shape?_of_unquoted (unquoted_source hlex hinfix) c.shape hread

private theorem types_upperAscii (t : Table) :
    t.upperAscii.types = t.types.map (Option.map ColumnType.upperAscii) := by
  rw [types, upperAscii, List.map_map, types, List.map_map]
  exact List.map_congr_left fun c _ => Column.type?_upperAscii c

private theorem types_of_unquoted {statement : Text} (h : statement.Unquoted) :
    (read statement).upperAscii.result.toOption.map types =
      (read statement).result.toOption.map types := by
  cases ht : (read statement).result with
  | error e => simp [Outcome.upperAscii, ht, Except.map, Except.mapError, Except.toOption]
  | ok t =>
    have htypes : t.upperAscii.types = t.types := by
      rw [types_upperAscii, types, List.map_map]
      exact List.map_congr_left (type?_of_unquoted h ht)
    simp [Outcome.upperAscii, ht, Except.map, Except.mapError, Except.toOption, htypes]

/-- A statement in capitals has the same outcome in capitals, and without quotes its columns have
the same types. -/
theorem read_capitals (statement : Text) :
    (read (Text.upperAscii statement)).upperAscii = (read statement).upperAscii ∧
      (statement.Unquoted → (read (Text.upperAscii statement)).result.toOption.map types =
        (read statement).result.toOption.map types) := by
  have houtcome := read_upperAscii statement
  refine ⟨houtcome, fun h => ?_⟩
  rw [← types_of_unquoted h, ← types_of_unquoted (Text.unquoted_upperAscii.2 h), houtcome]

/-- Keys, defaults and type names of several words in small letters. -/
theorem read_capitals_orders :
    let statement : Text := "create table if not exists shop.orders (id bigserial primary key, " ++
      "price decimal(10,2) unsigned default 1.5, sent timestamp with time zone not null, " ++
      "seen datetime default current_timestamp on update now(), unique key by_price (price))"
    let types : Option (List (Option ColumnType)) :=
      some [some (.integer .big none), some (.decimal (some 10) (some 2)), some (.timestamp true),
        some .dateTime]
    statement.Unquoted ∧ (read statement).result.toOption.map Table.types = types ∧
      (read (Text.upperAscii statement)).upperAscii = (read statement).upperAscii ∧
      (read (Text.upperAscii statement)).result.toOption.map Table.types =
        (read statement).result.toOption.map Table.types := by
  intro statement types
  have h : statement.Unquoted := by decide +kernel
  obtain ⟨houtcome, htypes⟩ := read_capitals statement
  refine ⟨h, ?_, houtcome, htypes h⟩
  decide +kernel

/-- The values of an enumeration are kept in the case in which they are quoted. -/
example :
    let statement : Text := "create table t (kind enum('a'))"
    (read (Text.upperAscii statement)).result.toOption.map types ≠
      (read statement).result.toOption.map types := by
  decide +kernel

end Table

end TableDialects
