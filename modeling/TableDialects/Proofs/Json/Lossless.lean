import TableDialects.Json.Model
import Mathlib.Data.List.Zip

/-!
# Reading what was written

The JSON of a table or of a column type reads back as the same table or type.
-/
namespace TableDialects

namespace Json

/-- An object with the first members of a record reads as the array of these members. -/
theorem members?_zip {names : List String} (hn : (names.map String.toList).Nodup) (js : List Json)
    (hl : js.length ≤ names.length) :
    members? names (.object ((names.map String.toList).zip js)) = members? names (.array js) := by
  have hfound : names.map (fun n =>
        (((names.map String.toList).zip js).find? (·.1 == n.toList)).map (·.2)) =
      js.map some ++ List.replicate (names.length - js.length) none := by
    induction names generalizing js with
    | nil =>
      obtain rfl := List.eq_nil_of_length_eq_zero (Nat.le_zero.1 hl)
      rfl
    | cons n ns ih =>
      obtain ⟨hn, hns⟩ := List.nodup_cons.1 hn
      cases js with
      | nil => simp [List.replicate_succ, List.map_const']
      | cons j js =>
        have hrest := ih hns js (Nat.le_of_succ_le_succ hl)
        -- the first field has another name than the later members
        have hskip : ∀ m ∈ ns, (n.toList == m.toList) = false := fun m hm =>
          beq_eq_false_iff_ne.2 fun he => hn (he ▸ List.mem_map_of_mem hm)
        simp only [List.map_cons, List.zip_cons_cons, List.find?_cons, BEq.rfl, Option.map_some,
          List.cons_append, List.length_cons, Nat.succ_sub_succ]
        congr 1
        rw [← hrest]
        refine List.map_congr_left fun m hm => ?_
        rw [hskip m hm]
  rw [members?, members?, hfound, if_pos hl]

theorem nullable?_ofNullable {α : Type} {read : Json → Option α} {write : α → Json}
    (hw : ∀ a, write a ≠ .null) (h : ∀ a, read (write a) = some a) (o : Option α) :
    nullable? read (ofNullable write o) = some o := by
  cases o with
  | none => rfl
  | some a =>
    rw [ofNullable, nullable?]
    · rw [h, Option.map_some]
    · exact hw a

private theorem list?_map {α : Type} {read : Json → Option α} {write : α → Json}
    (h : ∀ a, read (write a) = some a) (as : List α) :
    list? read (.array (as.map write)) = some as := by
  change (as.map write).mapM read = some as
  induction as with
  | nil => rfl
  | cons a as ih => simp [h, ih]

private theorem unsigned?_number (n : UInt32) : unsigned? (.number n.toNat) = some n := by
  have hn : (n.toNat : Int) < UInt32.size := by exact_mod_cast n.toNat_lt_size
  rw [unsigned?, if_pos ⟨Int.natCast_nonneg _, hn⟩, Int.toNat_natCast, UInt32.ofNat_toNat]

@[simp]
theorem nullable?_text (o : Option Text) : nullable? text? (ofNullable .text o) = some o :=
  nullable?_ofNullable (fun _ : Text => Json.noConfusion) (fun _ => rfl) o

@[simp]
theorem list?_texts (ts : List Text) : list? text? (ColumnType.texts ts) = some ts :=
  list?_map (fun _ : Text => rfl) ts

@[simp]
theorem nullable?_texts (o : Option (List Text)) :
    nullable? (list? text?) (ofNullable ColumnType.texts o) = some o :=
  nullable?_ofNullable (fun _ => by simp [ColumnType.texts]) list?_texts o

@[simp]
theorem nullable?_number (o : Option UInt32) :
    nullable? unsigned? (ColumnType.number o) = some o :=
  nullable?_ofNullable (fun _ => by simp) unsigned?_number o

@[simp]
theorem plainChoice?_integerSize (s : IntegerSize) :
    plainChoice? IntegerSize.names s.toJson = some s := by
  cases s <;> rfl

@[simp]
theorem plainChoice?_sizeClass (s : SizeClass) :
    plainChoice? SizeClass.names s.toJson = some s := by
  cases s <;> rfl

end Json

open Json

namespace ColumnType

/-- A choice with members is read by its entry in the table of such choices. -/
theorem ofJson?_record {name : String} {members : List (String × Json)}
    {entry : String × (List (Text × Json) → Option ColumnType)}
    (h : recordTypes.find? (·.1.toList == name.toList) = some entry) :
    ofJson? (record name members) = entry.2 (members.map fun m => (m.1.toList, m.2)) := by
  change ((recordTypes.find? (·.1.toList == name.toList)).bind fun e =>
    e.2 (members.map fun m => (m.1.toList, m.2))) = _
  rw [h]
  rfl

/-- The first member is found by its name. -/
theorem find?_member (name : String) (j : Json) (members : List (String × Json)) :
    (((name, j) :: members).map fun m => (m.1.toList, m.2)).find? (·.1 == name.toList) =
      some (name.toList, j) := by
  simp

/-- A member with another name is passed over. -/
theorem find?_member_of_ne {name other : String} (h : other ≠ name) (j : Json)
    (members : List (String × Json)) :
    (((other, j) :: members).map fun m => (m.1.toList, m.2)).find? (·.1 == name.toList) =
      (members.map fun m => (m.1.toList, m.2)).find? (·.1 == name.toList) := by
  have hne : (other.toList == name.toList) = false :=
    beq_eq_false_iff_ne.2 fun he => h (String.toList_inj.1 he)
  rw [List.map_cons, List.find?_cons_of_neg (by simp [hne])]

/-- A column type reads back as itself. -/
theorem ofJson?_toJson (ty : ColumnType) : ofJson? ty.toJson = some ty := by
  cases ty with
  | boolean | float | double | money | date | dateTime | year | uuid => rfl
  | _ =>
    rw [toJson, ofJson?_record rfl]
    simp only [get?, number?, find?_member, ne_eq, String.reduceEq, not_false_eq_true,
      find?_member_of_ne, Option.bind_some, Option.map_some, Option.bind_eq_bind, Option.pure_def,
      nullable?_number, plainChoice?_integerSize, plainChoice?_sizeClass, list?_texts, bool?]

end ColumnType

namespace Column

/-- A column reads back as itself. -/
theorem ofJson?_toJson (c : Column) : ofJson? c.toJson = some c := by
  have hn : (memberNames.map String.toList).Nodup := by decide
  have hms : members? memberNames c.toJson =
      some [some (.text c.name), some (.text c.typeName), some (.text c.length),
        some (.bool c.key), some (.bool c.nullable), some (ofNullable .text c.defaultValue),
        some (.bool c.autoIncrement), some (ofNullable ColumnType.texts c.values),
        some (ofNullable .text c.comment), some (.bool c.unsigned)] :=
    members?_zip hn
      [.text c.name, .text c.typeName, .text c.length, .bool c.key, .bool c.nullable,
        ofNullable .text c.defaultValue, .bool c.autoIncrement,
        ofNullable ColumnType.texts c.values, ofNullable .text c.comment, .bool c.unsigned]
      (Nat.le_refl 10)
  rw [ofJson?, hms]
  simp [member?, memberOr?, text?, bool?]

end Column

namespace Table

/-- The members of a table that are there. An empty composite key is not. -/
theorem members?_toJson (t : Table) :
    members? memberNames t.toJson =
      some [some (.text t.name), some (.array (t.columns.map Column.toJson)),
        some (ofNullable .text t.primaryKey),
        if t.compositeKey = [] then none else some (ColumnType.texts t.compositeKey)] := by
  have hn : (memberNames.map String.toList).Nodup := by decide
  by_cases hk : t.compositeKey = []
  · rw [toJson, hk, if_pos rfl]
    exact members?_zip hn [.text t.name, .array (t.columns.map Column.toJson),
      ofNullable .text t.primaryKey] (by decide : 3 ≤ 4)
  · rw [toJson, if_neg (by simpa using hk), if_neg hk]
    exact members?_zip hn [.text t.name, .array (t.columns.map Column.toJson),
      ofNullable .text t.primaryKey, ColumnType.texts t.compositeKey] (Nat.le_refl 4)

/-- A table reads back as itself, although an empty composite key is not written. -/
theorem ofJson?_toJson (t : Table) : ofJson? t.toJson = some t := by
  have hcolumns : list? Column.ofJson? (.array (t.columns.map Column.toJson)) = some t.columns :=
    list?_map Column.ofJson?_toJson t.columns
  rw [ofJson?, members?_toJson]
  by_cases hk : t.compositeKey = []
  · obtain ⟨name, columns, primaryKey, compositeKey⟩ := t
    obtain rfl : compositeKey = [] := hk
    simp [member?, memberOr?, text?, hcolumns]
  · simp [member?, memberOr?, text?, hcolumns, hk]

end Table

/-- The JSON form loses nothing: every table and every column type reads back as itself, although
the composite key of a table is a field just when there is one. -/
theorem json_lossless :
    (∀ t : Table, Table.ofJson? t.toJson = some t ∧
      ∃ fields, t.toJson = .object fields ∧
        ("composite_key".toList ∈ fields.map (·.1) ↔ t.compositeKey ≠ [])) ∧
    ∀ ty : ColumnType, ColumnType.ofJson? ty.toJson = some ty := by
  refine ⟨fun t => ⟨Table.ofJson?_toJson t, _, rfl, ?_⟩, ColumnType.ofJson?_toJson⟩
  by_cases hk : t.compositeKey = [] <;> simp [hk]

end TableDialects
