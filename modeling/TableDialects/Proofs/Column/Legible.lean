import TableDialects.Table.Rendering
import TableDialects.Proofs.Column.Phrase
import TableDialects.Proofs.Dialect.Name
import TableDialects.Proofs.Dialect.StoredType

/-!
# Legible columns

A column is legible in a dialect if what the dialect writes for it is read back. What is read back
is the column as the dialect stores it.
-/
namespace TableDialects

open Lexeme

namespace ColumnType

private theorem plain_of_mem_vocabulary {values : List Text} (h : ∀ v ∈ values, Text.Plain v)
    (length : Text) : ∀ e ∈ vocabulary, Plain (e.2 ⟨length, values⟩) := by
  simp only [vocabulary, List.forall_mem_cons, Plain]
  simpa using h

private theorem plain_ofSource? {name length : Text} {values : List Text} {type : ColumnType}
    (h : ofSource? name length values = some type) (hv : ∀ v ∈ values, Text.Plain v) :
    type.Plain := by
  obtain ⟨e, he, rfl⟩ := Option.map_eq_some_iff.1 h
  exact plain_of_mem_vocabulary hv _ e (List.mem_of_find?_eq_some he)

end ColumnType

namespace Column

/-- What a dialect writes for the column can be read back. -/
structure Legible (d : Dialect) (c : Column) : Prop where
  name : d.CanName c.name
  type : c.type?.isSome = true
  /-- MySQL writes the values of an enumeration. -/
  values : d.family = .mysql → ∀ v ∈ c.values.getD [], Text.Plain v
  default : ∀ v ∈ c.defaultValue, v = "NULL".toList ∨ ∃ p : DefaultPhrase, p.Plain ∧ v = p.text
  /-- Only MySQL writes comments. -/
  comment : d.family = .mysql → ∀ t ∈ c.comment, Text.Plain t

/-- The dialect has room to write the type of the column. -/
def Fits (d : Dialect) (c : Column) : Prop := ∀ type ∈ c.type?, type.Fits d

/-- The default of a column in a dialect. -/
def defaultPhrase? (d : Dialect) (c : Column) : Option DefaultPhrase :=
  (c.defaultValue.bind DefaultPhrase.ofText?).bind (DefaultPhrase.stored? d)

/-- What a dialect writes for a column. -/
def phrase (d : Dialect) (primary : Bool) (c : Column) : ColumnPhrase where
  name := c.name
  type := d.phrase (c.type?.getD .boolean)
  unsigned := c.unsigned && d.supportsUnsigned && c.type?.any (·.isNumeric)
  primary := primary
  required := c.key || !c.nullable
  counting := c.autoIncrement && d.autoIncrement?.isSome
  default := c.defaultPhrase? d
  comment := if d.family = .mysql then c.comment else none

section
variable {d : Dialect} {c : Column} {primary : Bool}

theorem Legible.exists_type (h : c.Legible d) : ∃ type, c.type? = some type :=
  Option.isSome_iff_exists.1 h.type

theorem defaultPhrase?_of_text {v : DefaultPhrase} (hv : v.Plain)
    (hd : c.defaultValue = some v.text) :
    c.defaultPhrase? d = v.stored? d := by
  rw [defaultPhrase?, hd, Option.bind_some, DefaultPhrase.ofText?_text hv, Option.bind_some]

private theorem defaultPhrase?_of_null (hd : c.defaultValue = some "NULL".toList) :
    c.defaultPhrase? d = none := by
  have hn : DefaultPhrase.ofText? "NULL" = none := by decide +kernel
  rw [defaultPhrase?, hd, Option.bind_some, hn, Option.bind_none]

private theorem plain_stored? {v w : DefaultPhrase} (hv : v.Plain) (h : v.stored? d = some w) :
    w.Plain := by
  cases v with
  | literal value =>
    have hw : w = .literal value := by
      cases d <;> exact (Option.some.inj h).symm
    exact hw ▸ hv
  | _ => cases d <;> cases h <;> trivial

private theorem plain_defaultPhrase? (h : c.Legible d) : ∀ v ∈ c.defaultPhrase? d, v.Plain := by
  intro v hv
  cases hd : c.defaultValue with
  | none =>
    rw [defaultPhrase?, hd] at hv
    exact absurd hv (by simp)
  | some t =>
    rcases h.default t hd with rfl | ⟨w, hw, rfl⟩
    · rw [defaultPhrase?_of_null hd] at hv
      exact absurd hv (by simp)
    · rw [defaultPhrase?_of_text hw hd] at hv
      exact plain_stored? hw hv

theorem wellFormed_phrase (h : c.Legible d) (primary : Bool) :
    (c.phrase d primary).WellFormed where
  type := by
    obtain ⟨type, ht⟩ := h.exists_type
    rw [phrase, ht]
    exact Dialect.wellFormed_phrase d fun hd => ColumnType.plain_ofSource? ht (h.values hd)
  default := plain_defaultPhrase? h
  comment := by
    intro t ht
    simp only [phrase] at ht
    split at ht
    · next hd => exact h.comment hd t ht
    · exact absurd ht (by simp)

private theorem text_unsigned (d : Dialect) (c : Column) :
    (if c.unsigned && d.supportsUnsigned && c.type?.any (·.isNumeric) then
      [ClausePhrase.unsigned] else []).flatMap ClausePhrase.text = c.renderUnsigned d := by
  unfold renderUnsigned
  split
  · exact List.append_nil _
  · rfl

private theorem text_nullClause (d : Dialect) (c : Column) (primary : Bool) :
    (c.phrase d primary).nullClause.text = c.renderNull primary := by
  rw [ColumnPhrase.nullClause, apply_ite ClausePhrase.text, apply_ite ClausePhrase.text]
  rfl

private theorem text_counting (d : Dialect) (c : Column) :
    (if c.autoIncrement && d.autoIncrement?.isSome then
      [ClausePhrase.autoIncrement] else []).flatMap ClausePhrase.text =
      clause (if c.autoIncrement then d.autoIncrement? else none) := by
  cases c.autoIncrement with
  | false => rfl
  | true =>
    cases d with
    | mysql => exact List.append_nil _
    | mariadb => exact List.append_nil _
    | _ => rfl

private theorem same_null (v : DefaultPhrase) : Text.same v.text "NULL" = false := by
  cases v with
  | truth value => cases value <;> decide
  | literal value => exact DefaultPhrase.same_cons (d := 'n') _ (by decide) (by decide)
  | _ => decide

private theorem text_default (h : ∀ v ∈ c.defaultValue, v = "NULL".toList ∨
      ∃ p : DefaultPhrase, p.Plain ∧ v = p.text) :
    ((c.defaultPhrase? d).toList.map ClausePhrase.defaultValue).flatMap ClausePhrase.text =
      c.renderDefault d := by
  unfold renderDefault
  cases hd : c.defaultValue with
  | none =>
    rw [defaultPhrase?, hd]
    rfl
  | some t =>
    rcases h t hd with rfl | ⟨v, hv, rfl⟩
    · have hs : DefaultValue.stripCasts "NULL" = "NULL".toList := by decide +kernel
      have hsame : Text.same "NULL" "NULL" = true := by decide
      rw [defaultPhrase?_of_null hd, Option.map_some, hs]
      simp only [hsame]
      rfl
    · rw [defaultPhrase?_of_text hv hd, Option.map_some, DefaultPhrase.stripCasts_text]
      simp only [same_null, DefaultPhrase.defaultValue?_text]
      cases v.stored? d with
      | none => rfl
      | some w => exact List.append_nil _

private theorem text_comment (d : Dialect) (c : Column) :
    ((if d.family = .mysql then c.comment else none).toList.map ClausePhrase.comment).flatMap
      ClausePhrase.text = clause (c.comment.bind d.comment?) := by
  cases c.comment with
  | none => cases d <;> rfl
  | some t =>
    cases d with
    | mysql => exact List.append_nil _
    | mariadb => exact List.append_nil _
    | _ => rfl

/-- The name and what follows it are the line of the column. -/
theorem source_phrase (h : c.Legible d) (primary : Bool) :
    d.identifier c.name ++ source (c.phrase d primary).afterName = c.render d primary := by
  obtain ⟨type, ht⟩ := h.exists_type
  have htype : (c.phrase d primary).type.text = c.renderType d := by
    simp only [phrase, renderType, ht]
    exact Dialect.text_phrase d type
  have hunsigned : (if (c.phrase d primary).unsigned then [ClausePhrase.unsigned] else []).flatMap
      ClausePhrase.text = c.renderUnsigned d := text_unsigned d c
  have hcounting : (if (c.phrase d primary).counting then [ClausePhrase.autoIncrement]
      else []).flatMap ClausePhrase.text =
      clause (if c.autoIncrement then d.autoIncrement? else none) := text_counting d c
  have hdefault : ((c.phrase d primary).default.toList.map ClausePhrase.defaultValue).flatMap
      ClausePhrase.text = c.renderDefault d := text_default h.default
  have hcomment : ((c.phrase d primary).comment.toList.map ClausePhrase.comment).flatMap
      ClausePhrase.text = clause (c.comment.bind d.comment?) := text_comment d c
  rw [ColumnPhrase.source_afterName (wellFormed_phrase h primary), htype,
    ColumnPhrase.clausePhrases, List.flatMap_append, List.flatMap_cons, List.flatMap_append,
    List.flatMap_append, text_nullClause, hunsigned, hcounting, hdefault, hcomment]
  simp [render]

theorem read_phrase (h : c.Legible d) (primary : Bool) (g : Text) :
    Fragment.read (d.nameLexeme g c.name :: (c.phrase d primary).afterName) =
      { result := .ok (.column (c.phrase d primary).column primary),
        problems := (c.phrase d primary).problems } := by
  have hw := wellFormed_phrase h primary
  have hname : (d.nameLexeme g c.name).token.name? = some c.name := d.name?_nameToken c.name
  have hread := ColumnPhrase.readNamed_afterName hw (d.nameLexeme g c.name)
  simp only [Fragment.read, hname, ColumnPhrase.isNamedIndex_afterName hw]
  exact hread

/-- The column that is read back, `key` telling whether its table has it in a key. -/
def reread (d : Dialect) (primary key : Bool) (c : Column) : Column :=
  { (c.phrase d primary).column with
    key
    nullable := (c.phrase d primary).column.nullable && !key }

/-- The type that is read back is the one that the dialect stores. -/
theorem type?_reread (h : c.Legible d) (primary key : Bool) :
    (c.reread d primary key).type? = c.type?.map d.storedType := by
  obtain ⟨type, ht⟩ := h.exists_type
  have hp : (c.phrase d primary).type = d.phrase type := by
    rw [phrase, ht]
    rfl
  have hc := @ColumnPhrase.type?_column (c.phrase d primary) (hp ▸ Dialect.values_phrase d)
  rw [hp, Dialect.type?_phrase d (ColumnType.sized_ofSource? ht)] at hc
  rw [ht, Option.map_some, ← hc]
  rfl

private theorem renderType_reread (h : c.Legible d) (primary key : Bool) :
    Text.Narrows (c.Fits d) ((c.reread d primary key).renderType d) (c.renderType d) := by
  obtain ⟨type, ht⟩ := h.exists_type
  simp only [renderType, type?_reread h, ht, Option.map_some]
  refine (Dialect.typeName_storedType d type).congr ?_
  simp [Fits, ht]

private theorem renderUnsigned_reread (h : c.Legible d) (primary key : Bool) :
    (c.reread d primary key).renderUnsigned d = c.renderUnsigned d := by
  obtain ⟨type, ht⟩ := h.exists_type
  have hu : (c.reread d primary key).unsigned =
      (c.unsigned && d.supportsUnsigned && type.isNumeric) := by
    change (c.unsigned && d.supportsUnsigned && c.type?.any (·.isNumeric)) = _
    rw [ht]
    rfl
  have hb : (c.unsigned && d.supportsUnsigned && type.isNumeric && d.supportsUnsigned &&
      (d.storedType type).isNumeric) =
      (c.unsigned && d.supportsUnsigned && type.isNumeric) := by
    cases hn : type.isNumeric with
    | false => simp
    | true =>
      rw [Dialect.isNumeric_storedType d hn]
      cases d.supportsUnsigned <;> simp
  simp only [renderUnsigned, type?_reread h, ht, hu, Option.map_some, Option.any_some, hb]

private theorem renderNull_reread {key : Bool} (hk : key = true → primary = true ∨ c.key = true) :
    (c.reread d primary key).renderNull primary = c.renderNull primary := by
  cases primary with
  | true => rfl
  | false =>
    have hr : ((c.reread d false key).key || !(c.reread d false key).nullable) =
        (c.key || !c.nullable) := by
      change (key || !(!(false || (c.key || !c.nullable)) && !key)) = _
      cases key with
      | false => simp
      | true =>
        have hc : c.key = true := (hk rfl).resolve_left (by simp)
        simp [hc]
    simp only [renderNull, hr]

private theorem stored?_stored? {v w : DefaultPhrase} (h : v.stored? d = some w) :
    w.stored? d = some w := by
  cases v <;> cases d <;> cases h <;> rfl

private theorem renderDefault_reread (h : c.Legible d) (primary key : Bool) :
    (c.reread d primary key).renderDefault d = c.renderDefault d := by
  have hd : (c.reread d primary key).defaultValue =
      (c.defaultPhrase? d).map DefaultPhrase.text := rfl
  have hplain := plain_defaultPhrase? h
  have hl : ∀ v ∈ (c.reread d primary key).defaultValue, v = "NULL".toList ∨
      ∃ p : DefaultPhrase, p.Plain ∧ v = p.text := by
    intro v hv
    rw [hd] at hv
    obtain ⟨w, hw, rfl⟩ := Option.map_eq_some_iff.1 hv
    exact .inr ⟨w, hplain w hw, rfl⟩
  have hsame : (c.reread d primary key).defaultPhrase? d = c.defaultPhrase? d := by
    cases hw : c.defaultPhrase? d with
    | none =>
      rw [hw, Option.map_none] at hd
      rw [defaultPhrase?, hd]
      rfl
    | some w =>
      rw [hw, Option.map_some] at hd
      rw [defaultPhrase?_of_text (hplain w hw) hd]
      obtain ⟨v, -, hv⟩ := Option.bind_eq_some_iff.1 hw
      exact stored?_stored? hv
  rw [← text_default hl, hsame, text_default h.default]

/-- A column that is read back is written as before, if it fits. -/
theorem render_reread (h : c.Legible d) {key : Bool}
    (hk : key = true → primary = true ∨ c.key = true) :
    Text.Narrows (c.Fits d) ((c.reread d primary key).render d primary) (c.render d primary) := by
  have hcounting : (if (c.reread d primary key).autoIncrement then d.autoIncrement? else none) =
      if c.autoIncrement then d.autoIncrement? else none := by
    change (if c.autoIncrement && d.autoIncrement?.isSome then d.autoIncrement? else none) = _
    cases c.autoIncrement <;> cases d <;> rfl
  have hcomment : (c.reread d primary key).comment.bind d.comment? = c.comment.bind d.comment? := by
    change (if d.family = .mysql then c.comment else none).bind d.comment? = _
    cases c.comment <;> cases d <;> rfl
  have hname : (c.reread d primary key).name = c.name := rfl
  have htype := ((renderType_reread h primary key).append_left [' ']).append_left
    (d.identifier c.name)
  rw [render, render, hname, renderUnsigned_reread h, renderNull_reread hk, hcounting,
    renderDefault_reread h, hcomment]
  exact ((((htype.append_right _).append_right _).append_right _).append_right _).append_right _

end

end Column

end TableDialects
