import TableDialects.Proofs.Column.Clause

/-!
# Column phrases

A column is a name, a type and clauses in a fixed order. What follows its name is read back as the
column.
-/
namespace TableDialects

open Lexeme

/-- What a definition says about a column. -/
structure ColumnPhrase where
  name : Text
  type : TypePhrase
  unsigned : Bool
  primary : Bool
  /-- Whether there must be a value. A primary key must have one in any case. -/
  required : Bool
  counting : Bool
  default : Option DefaultPhrase
  comment : Option Text

namespace ColumnPhrase

variable (p : ColumnPhrase)

def nullClause : ClausePhrase :=
  if p.primary then .primaryKey else if p.required then .notNull else .null

def clausePhrases : List ClausePhrase :=
  (if p.unsigned then [.unsigned] else []) ++
    (p.nullClause :: ((if p.counting then [.autoIncrement] else []) ++
      (p.default.toList.map .defaultValue ++ p.comment.toList.map .comment)))

/-- What follows the name of the type. -/
def afterType : List Lexeme :=
  p.type.list ++ ((TypePhrase.zoneWords p.type.zone).map keyword ++
    p.clausePhrases.flatMap ClausePhrase.lexemes)

/-- What follows the name of the column. -/
def afterName : List Lexeme := p.type.nameLexemes ++ p.afterType

/-- The column that the phrase is read as. -/
def column : Column where
  name := p.name
  typeName := p.type.typeName
  length := p.type.length
  nullable := !(p.primary || p.required)
  defaultValue := p.default.map DefaultPhrase.text
  autoIncrement := p.counting
  values := if p.type.isEnumeration then some p.type.values else none
  comment := p.comment
  unsigned := p.unsigned

/-- An enumeration should have values. -/
def problems : List Problem :=
  if p.type.isEnumeration && p.type.values.isEmpty then [.malformedEnumeration p.name] else []

structure WellFormed : Prop where
  type : p.type.WellFormed
  default : ∀ v ∈ p.default, v.Plain
  comment : ∀ t ∈ p.comment, Text.Plain t

section
variable {p}

private theorem WellFormed.plain (h : p.WellFormed) : ∀ c ∈ p.clausePhrases, c.Plain := by
  intro c hc
  simp only [clausePhrases, List.mem_append, List.mem_cons, List.mem_map, Option.mem_toList] at hc
  rcases hc with hc | rfl | hc | ⟨v, hv, rfl⟩ | ⟨t, ht, rfl⟩
  · split at hc
    · obtain rfl := List.mem_singleton.1 hc
      trivial
    · simp at hc
  · unfold nullClause
    split
    · trivial
    split <;> trivial
  · split at hc
    · obtain rfl := List.mem_singleton.1 hc
      trivial
    · simp at hc
  · exact h.default v hv
  · exact h.comment t ht

private theorem apart_clauses {ps : List ClausePhrase} (h : ∀ c ∈ ps, c.Plain) :
    Apart (ps.flatMap ClausePhrase.lexemes) := by
  induction ps with
  | nil => exact apart_nil
  | cons c ps ih =>
    exact (ClausePhrase.apart_lexemes (h c List.mem_cons_self)).append
      (ih fun d hd => h d (List.mem_cons_of_mem c hd))

private theorem source_clauses (ps : List ClausePhrase) :
    source (ps.flatMap ClausePhrase.lexemes) = ps.flatMap ClausePhrase.text := by
  induction ps with
  | nil => rfl
  | cons c ps ih =>
    rw [List.flatMap_cons, List.flatMap_cons, source_append, c.source_lexemes, ih]

private theorem enclosed_clauses (ps : List ClausePhrase) :
    Token.Enclosed ((ps.flatMap ClausePhrase.lexemes).map (·.token)) := by
  induction ps with
  | nil => rfl
  | cons c ps ih =>
    rw [List.flatMap_cons, List.map_append]
    exact c.enclosed_lexemes.append ih

theorem afterName_eq (p : ColumnPhrase) :
    p.afterName = p.type.lexemes ++ p.clausePhrases.flatMap ClausePhrase.lexemes := by
  simp [afterName, afterType, TypePhrase.lexemes]

theorem apart_afterName (h : p.WellFormed) : Apart p.afterName := by
  rw [afterName_eq]
  exact (TypePhrase.apart_lexemes h.type).append (apart_clauses h.plain)

theorem enclosed_afterName : Token.Enclosed (p.afterName.map (·.token)) := by
  rw [afterName_eq, List.map_append]
  exact TypePhrase.enclosed_lexemes.append (enclosed_clauses _)

theorem source_afterName (h : p.WellFormed) :
    source p.afterName = ' ' :: (p.type.text ++ p.clausePhrases.flatMap ClausePhrase.text) := by
  rw [afterName_eq, source_append, TypePhrase.source_lexemes h.type, source_clauses]
  rfl

theorem not_mem_source (h : p.WellFormed) : '\r' ∉ source p.afterName := by
  have hc : '\r' ∉ p.clausePhrases.flatMap ClausePhrase.text := by
    intro hm
    obtain ⟨c, hc, hm⟩ := List.mem_flatMap.1 hm
    exact ClausePhrase.not_mem_text (h.plain c hc) hm
  rw [source_afterName h]
  simp [TypePhrase.not_mem_text h.type, hc]

/-- The words that follow the list of a type. -/
def laterWords : List String := ["WITH", "WITHOUT"] ++ Clause.firstWords

theorem head?_later (z : Option Bool) {cs : List Lexeme} (hc : Clause.Begins cs) :
    ∀ l ∈ ((TypePhrase.zoneWords z).map keyword ++ cs).head?,
      ∃ w ∈ laterWords, l = keyword w := by
  intro l hl
  rcases z with _ | _ | _
  · obtain ⟨w, hw, rfl⟩ := hc l hl
    exact ⟨w, List.mem_append_right _ hw, rfl⟩
  · obtain rfl := Option.some.inj hl
    exact ⟨"WITHOUT", by simp [laterWords], rfl⟩
  · obtain rfl := Option.some.inj hl
    exact ⟨"WITH", by simp [laterWords], rfl⟩

private theorem leadingGroup_list (q : TypePhrase) {rest : List Lexeme}
    (hr : ∀ l ∈ rest.head?, ∃ w, l = keyword w) :
    leadingGroup (q.list ++ rest) = q.list.length := by
  unfold TypePhrase.list
  split
  · cases rest with
    | nil => rfl
    | cons l rest =>
      obtain ⟨w, rfl⟩ := hr l rfl
      rfl
  · exact leadingGroup_group (TypePhrase.enclosed_arguments _) rest

/-- The text between the parentheses is the length. -/
theorem length_list (q : TypePhrase) (rest : List Lexeme) :
    (if q.list.length = 0 then [] else Text.trim (groupText (q.list ++ rest))) = q.length := by
  have ht := @TypePhrase.trim_length q
  unfold TypePhrase.list TypePhrase.length at *
  split
  · rfl
  · next as hs =>
    rw [hs] at ht
    rw [if_neg (by simp [group]), groupText_group (TypePhrase.enclosed_arguments _), List.map_map,
      List.append_nil]
    have hsrc : as.map (source ∘ fun a => [a.lexeme]) = as.map (·.lexeme.text) := by
      simp [Function.comp_def, Argument.lexeme_gap]
    rw [hsrc]
    exact ht

theorem zone?_of_begins {cs : List Lexeme} (hc : Clause.Begins cs) : Column.zone? cs = none := by
  have hw : ∀ w ∈ Clause.firstWords, (keyword w).token.isWord "with" = false ∧
    (keyword w).token.isWord "without" = false := by decide
  unfold Column.zone?
  split
  · next first time zone rest =>
    obtain ⟨w, hm, rfl⟩ := hc first rfl
    simp only [hw w hm]
    split <;> rfl
  · rfl

private theorem zone?_zoneWords (z : Bool) (cs : List Lexeme) :
    Column.zone? ((TypePhrase.zoneWords (some z)).map keyword ++ cs) =
      some (TypePhrase.zoneName (some z)) := by
  have ht : (keyword "TIME").token.isWord "time" = true ∧
    (keyword "ZONE").token.isWord "zone" = true := by decide
  cases z with
  | false =>
    have hf : (keyword "WITHOUT").token.isWord "with" = false ∧
      (keyword "WITHOUT").token.isWord "without" = true := by decide
    simp only [TypePhrase.zoneWords, List.map_cons, List.cons_append, Column.zone?, ht, hf]
    rfl
  | true =>
    have hf : (keyword "WITH").token.isWord "with" = true := by decide
    simp only [TypePhrase.zoneWords, List.map_cons, List.cons_append, Column.zone?, ht, hf]
    rfl

private theorem zoneAfter?_later {q : TypePhrase} (h : q.WellFormed) {cs : List Lexeme}
    (hc : Clause.Begins cs) :
    Column.zoneAfter? q.name ((TypePhrase.zoneWords q.zone).map keyword ++ cs) =
      q.zone.map fun z => TypePhrase.zoneName (some z) := by
  cases hz : q.zone with
  | none =>
    unfold Column.zoneAfter?
    split
    · exact zone?_of_begins hc
    · rfl
  | some z =>
    have hn : Text.oneOf ["time", "timestamp"] (Text.lower q.name) = true := by
      rcases h.zone (by simp [hz]) with hw | hw <;> rw [TypePhrase.name, hw] <;> decide
    rw [Column.zoneAfter?, if_pos hn, zone?_zoneWords]
    rfl

private theorem draft_type {q : TypePhrase} (h : q.WellFormed) (name : Text) :
    Column.draft name q.typeName q.length =
      { column := { name, typeName := q.typeName, length := q.length,
                    values := if q.isEnumeration then some q.values else none }
        problems := if q.isEnumeration && q.values.isEmpty then [.malformedEnumeration name]
          else [] } := by
  have he : ColumnType.isEnumeration q.typeName = q.isEnumeration :=
    TypePhrase.isEnumeration_of_mem_names _ h.words _ (TypePhrase.mem_zones _)
  have hs : ColumnType.isSerial q.typeName = false :=
    TypePhrase.isSerial_of_mem_names _ h.words _ (TypePhrase.mem_zones _)
  rw [Column.draft, he, hs, TypePhrase.stringLiterals_length h]
  cases q.isEnumeration <;> rfl

/-- A clause that stands there if `b` says so. -/
theorem foldl_unsigned (b : Bool) (d : Draft) :
    ((if b then [ClausePhrase.unsigned] else []).flatMap ClausePhrase.clauses).foldl Draft.add d =
      { d with column := { d.column with unsigned := d.column.unsigned || b } } := by
  cases b <;> simp [ClausePhrase.clauses, Draft.add]

private theorem foldl_counting (b : Bool) (d : Draft) :
    ((if b then [ClausePhrase.autoIncrement] else []).flatMap ClausePhrase.clauses).foldl Draft.add
        d =
      { d with column := { d.column with autoIncrement := d.column.autoIncrement || b } } := by
  cases b <;> simp [ClausePhrase.clauses, Draft.add]

private theorem foldl_nullClause (p : ColumnPhrase) (d : Draft) :
    p.nullClause.clauses.foldl Draft.add d =
      { d with
        column := { d.column with nullable := d.column.nullable && !(p.primary || p.required) }
        inlinePrimary := d.inlinePrimary || p.primary } := by
  unfold nullClause
  cases p.primary <;> cases p.required <;> simp [ClausePhrase.clauses, Draft.add]

private theorem foldl_default {v : Option DefaultPhrase} (hv : ∀ w ∈ v, w.Plain) {d : Draft}
    (hd : d.column.defaultValue = none) :
    ((v.toList.map ClausePhrase.defaultValue).flatMap ClausePhrase.clauses).foldl Draft.add d =
      { d with column := { d.column with defaultValue := v.map DefaultPhrase.text } } := by
  cases v with
  | none =>
    rw [Option.map_none, ← hd]
    rfl
  | some v =>
    have hs := DefaultPhrase.holds_nextval (hv v rfl)
    have hn := DefaultPhrase.normalize_text (hv v rfl)
    change Draft.add d (.defaultValue v.text) = _
    rw [Draft.add, Draft.setDefault, hs, hn, hd]
    rfl

private theorem foldl_comment (t : Option Text) {d : Draft} (hd : d.column.comment = none) :
    ((t.toList.map ClausePhrase.comment).flatMap ClausePhrase.clauses).foldl Draft.add d =
      { d with column := { d.column with comment := t } } := by
  cases t with
  | none =>
    have hnone : { d.column with comment := none } = d.column := by rw [← hd]
    rw [hnone]
    rfl
  | some t =>
    change Draft.add d (.comment t) = _
    rw [Draft.add, hd]
    rfl

/-- Each clause sets its own part of the column. -/
theorem foldl_clausePhrases (h : p.WellFormed) {d : Draft} (hd : d.column.defaultValue = none)
    (hc : d.column.comment = none) :
    (p.clausePhrases.flatMap ClausePhrase.clauses).foldl Draft.add d =
      { d with
        column := { d.column with
          unsigned := d.column.unsigned || p.unsigned
          nullable := d.column.nullable && !(p.primary || p.required)
          autoIncrement := d.column.autoIncrement || p.counting
          defaultValue := p.default.map DefaultPhrase.text
          comment := p.comment }
        inlinePrimary := d.inlinePrimary || p.primary } := by
  rw [clausePhrases, List.flatMap_append, List.flatMap_cons, List.flatMap_append,
    List.flatMap_append, List.foldl_append, List.foldl_append, List.foldl_append,
    List.foldl_append, foldl_unsigned, foldl_nullClause, foldl_counting, foldl_default h.default,
    foldl_comment]
  · exact hc
  · exact hd

private theorem read_afterType (h : p.WellFormed) :
    Column.read p.name p.type.name p.afterType =
      { column := p.column, inlinePrimary := p.primary, problems := p.problems } := by
  have hb := ClausePhrase.begins_flatMap p.clausePhrases
  have hl := leadingGroup_list p.type (fun l hl => by
    obtain ⟨w, -, rfl⟩ := head?_later p.type.zone hb l hl
    exact ⟨_, rfl⟩)
  have hz : p.type.name ++ (p.type.zone.map fun z => TypePhrase.zoneName (some z)).getD [] =
      p.type.typeName := by
    rw [TypePhrase.typeName]
    cases p.type.zone <;> rfl
  have hr : (if (p.type.zone.map fun z => TypePhrase.zoneName (some z)).isSome then
        ((TypePhrase.zoneWords p.type.zone).map keyword ++
          p.clausePhrases.flatMap ClausePhrase.lexemes).drop 3
      else (TypePhrase.zoneWords p.type.zone).map keyword ++
        p.clausePhrases.flatMap ClausePhrase.lexemes) =
      p.clausePhrases.flatMap ClausePhrase.lexemes := by
    rcases p.type.zone with _ | _ | _ <;> rfl
  simp only [Column.read, afterType, hl, length_list, List.drop_left, zoneAfter?_later h.type hb,
    hz, hr, ClausePhrase.readAll_flatMap, draft_type h.type]
  rw [foldl_clausePhrases h rfl rfl]
  simp [Draft.finish, column, problems]

/-- The column has the type of its phrase, if only an enumeration has values. -/
theorem type?_column (h : p.type.isEnumeration = false → p.type.values = []) :
    p.column.type? = p.type.type? := by
  have hv : p.column.values.getD [] = p.type.values := by
    cases he : p.type.isEnumeration with
    | true => simp [column, he]
    | false => simp [column, he, h he]
  rw [Column.type?, hv]
  rfl

/-- What follows the name of the type never ends the type name. -/
theorem head?_afterType (p : ColumnPhrase) : ∀ l ∈ p.afterType.head?,
    l.token = .openParen ∨ ∃ w ∈ laterWords, l = keyword w := by
  intro l hl
  have hb := ClausePhrase.begins_flatMap p.clausePhrases
  unfold afterType TypePhrase.list at hl
  split at hl
  · exact .inr (head?_later _ hb l hl)
  · obtain rfl := Option.some.inj hl
    exact .inl rfl

private theorem typeName?_afterName (h : p.WellFormed) :
    (Fragment.typeName? p.afterName).filter (ColumnType.isRecognized ·.1) =
      some (p.type.name, p.afterType) := by
  have hw : ∀ w ∈ laterWords, (keyword w).token.isOneOf ["precision", "varying"] = false := by
    decide
  have ht : Fragment.typeName? p.afterName = some (p.type.name, p.afterType) := by
    refine TypePhrase.typeName?_words h.type fun l hl => ?_
    rcases p.head?_afterType l hl with hp | ⟨w, hm, rfl⟩
    · rw [hp]
      rfl
    · exact hw w hm
  have hr : ColumnType.isRecognized p.type.name = true :=
    TypePhrase.isRecognized_of_mem_names _ h.type.words
  rw [ht, Option.filter_some, if_pos hr]

/-- A column is read back, whatever token its name is. -/
theorem readNamed_afterName (h : p.WellFormed) (first : Lexeme) :
    Fragment.readNamed first p.name p.afterName =
      { result := .ok (.column p.column p.primary), problems := p.problems } := by
  rw [Fragment.readNamed, typeName?_afterName h]
  simp only [read_afterType h]

private theorem word?_list (as : List Argument) (rest : List Lexeme) :
    ∀ l ∈ (group [] (as.map fun a => [a.lexeme]) [] ++ rest)[1]?, l.token.word? = none := by
  intro l hl
  cases as with
  | nil =>
    obtain rfl := Option.some.inj hl
    rfl
  | cons a as =>
    have he : ∃ ls, entries ((a :: as).map fun a => [a.lexeme]) = a.lexeme :: ls := by
      cases as with
      | nil => exact ⟨[], by simp [entries]⟩
      | cons b as => exact ⟨_, by rw [List.map_cons, List.map_cons, entries_cons_cons]; rfl⟩
    obtain ⟨ls, he⟩ := he
    rw [group, he] at hl
    obtain rfl := Option.some.inj hl
    cases a <;> rfl

/-- What stands two places behind the name is no keyword of a constraint, and no word follows it
if it is a parenthesis. -/
theorem getElem?_afterName (h : p.WellFormed) : ∀ l ∈ p.afterName[1]?,
    l.token.isOneOf Fragment.constraintKeywords = false ∧
    (l.token = .openParen → ∀ l' ∈ p.afterName[2]?, l'.token.word? = none) := by
  have hk : ∀ w ∈ laterWords ++ ["PRECISION", "VARYING"],
    (keyword w).token.isOneOf Fragment.constraintKeywords = false := by decide
  have htwo : ∀ v w : String, w ∈ ["PRECISION", "VARYING"] → p.type.words = [v, w] →
      ∀ l ∈ p.afterName[1]?, l.token.isOneOf Fragment.constraintKeywords = false ∧
      (l.token = .openParen → ∀ l' ∈ p.afterName[2]?, l'.token.word? = none) := by
    intro v w hm hw l hl
    have hname : p.afterName = keyword v :: keyword w :: p.afterType := by
      rw [afterName, TypePhrase.nameLexemes, hw]
      rfl
    rw [hname] at hl
    obtain rfl := Option.some.inj hl
    exact ⟨hk w (List.mem_append_right _ hm), fun h => absurd h (by simp [keyword])⟩
  intro l hl
  obtain ⟨-, -, hw⟩ := h.type.facts
  rcases hw with hw | hw | hw
  · obtain ⟨w, hw⟩ := List.length_eq_one_iff.1 hw
    have hname : p.afterName = keyword w :: p.afterType := by
      rw [afterName, TypePhrase.nameLexemes, hw]
      rfl
    rw [hname, List.getElem?_cons_succ] at hl ⊢
    have hb := ClausePhrase.begins_flatMap p.clausePhrases
    unfold afterType TypePhrase.list at hl ⊢
    split at hl
    · rw [← List.head?_eq_getElem?] at hl
      obtain ⟨w, hm, rfl⟩ := head?_later _ hb l hl
      exact ⟨hk w (List.mem_append_left _ hm), fun h => absurd h (by simp [keyword])⟩
    · obtain rfl := Option.some.inj hl
      exact ⟨rfl, fun _ l' hl' => word?_list _ _ l' hl'⟩
  · exact htwo _ _ (by simp) hw l hl
  · exact htwo _ _ (by simp) hw l hl

/-- No column is taken for an index, even if its name is a keyword. -/
theorem isNamedIndex_afterName (h : p.WellFormed) (first : Lexeme) :
    Fragment.isNamedIndex (first :: p.afterName) = false := by
  have hconstraint : (p.afterName[1]?.map (·.token)).any
      (·.isOneOf Fragment.constraintKeywords) = false := by
    cases hl : p.afterName[1]? with
    | none => rfl
    | some l => exact (getElem?_afterName h l hl).1
  have hindex : (p.afterName[1]?.map (·.token) == some .openParen &&
      (p.afterName[2]?.map (·.token)).any (·.word?.isSome)) = false := by
    cases hl : p.afterName[1]? with
    | none => rfl
    | some l =>
      by_cases hp : l.token = .openParen
      · have hword := (getElem?_afterName h l hl).2 hp
        cases hl' : p.afterName[2]? with
        | none => simp
        | some l' => simp [hword l' hl']
      · simp [hp]
  unfold Fragment.isNamedIndex
  simp only [hconstraint, Bool.and_assoc, hindex, Bool.and_false, ite_self]

end

end ColumnPhrase

end TableDialects
