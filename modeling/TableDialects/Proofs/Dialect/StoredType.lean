import TableDialects.Proofs.ColumnType.Phrase
import TableDialects.Proofs.Text.Narrowing

/-!
# Stored types

A dialect has no names of its own for some column types and stores others in their place. What it
writes for a type is read back as the type that it stores, and the stored type is written alike,
unless the width of an enumeration wrapped around to zero.
-/
namespace TableDialects

namespace ColumnType

private theorem nodup_vocabulary : (vocabulary.map fun e => e.1.toList).Nodup := by decide

/-- Of the entries of a table without repeated names, a name finds its own. -/
theorem find?_name {table : List (String × (Qualifier → ColumnType))}
    (h : (table.map fun e => e.1.toList).Nodup) {e : String × (Qualifier → ColumnType)}
    (he : e ∈ table) : table.find? (fun f => f.1.toList == e.1.toList) = some e := by
  induction table with
  | nil => simp at he
  | cons f table ih =>
    rw [List.map_cons, List.nodup_cons] at h
    by_cases hf : f.1.toList = e.1.toList
    · have hne : e ∉ table := fun hm => h.1 (hf ▸ List.mem_map_of_mem hm)
      obtain rfl := (List.mem_cons.1 he).resolve_right hne
      simp
    · have hm := (List.mem_cons.1 he).resolve_left (by rintro rfl; exact hf rfl)
      rw [List.find?_cons_of_neg (by simpa using hf), ih h.2 hm]

theorem ofSource?_of_mem {e : String × (Qualifier → ColumnType)} (he : e ∈ vocabulary)
    {name : Text} (hn : plainName name = e.1.toList) (length : Text) (values : List Text) :
    ofSource? name length values = some (e.2 ⟨Text.trim length, values⟩) := by
  rw [ofSource?, hn, find?_name nodup_vocabulary he]
  rfl

/-- The lengths of a type are positive, as a length of zero says nothing. -/
def Sized : ColumnType → Prop
  | integer _ n | bit n | char n | varchar n | binary n _ => ∀ m ∈ n, 0 < m
  | decimal p _ => ∀ m ∈ p, 0 < m
  | _ => True

/-- If the dialect stores an enumeration as a text, its width does not wrap around to zero. -/
def Fits (d : Dialect) : ColumnType → Prop
  | enumeration values | set values => d.family ≠ .mysql → 0 < enumerationWidth values
  | _ => True

private theorem positive_of_positive? {t : Text} {n : UInt32} (h : Qualifier.positive? t = some n) :
    0 < n := by
  simpa using (Option.filter_eq_some_iff.1 h).2

private theorem sized_of_mem_vocabulary :
    ∀ e ∈ vocabulary, ∀ q, Sized (e.2 q) := by
  have hl : ∀ q : Qualifier, ∀ m ∈ q.length?, 0 < m := fun q m h => positive_of_positive? h
  have hp : ∀ q : Qualifier, ∀ m ∈ q.precision?, 0 < m := by
    intro q m h
    obtain ⟨t, -, h⟩ := Option.bind_eq_some_iff.1 h
    exact positive_of_positive? h
  simp only [vocabulary, List.forall_mem_cons, Sized]
  simpa using ⟨hl, hp, hl⟩

theorem sized_ofSource? {name length : Text} {values : List Text} {type : ColumnType}
    (h : ofSource? name length values = some type) : type.Sized := by
  obtain ⟨e, he, rfl⟩ := Option.map_eq_some_iff.1 h
  exact sized_of_mem_vocabulary e (List.mem_of_find?_eq_some he) _

end ColumnType

open ColumnType TypePhrase

namespace TypePhrase

/-- A type name with a length, if there is one. -/
def numbered (words : List String) (n : Option Nat) : TypePhrase :=
  { words, arguments := n.map fun n => [.number n] }

/-- A decimal type. A scale without a precision is left out. -/
def ofDecimal (word : String) : Option UInt32 → Option UInt32 → TypePhrase
  | some p, some s => { words := [word], arguments := some [.number p.toNat, .number s.toNat] }
  | precision, _ => numbered [word] (precision.map (·.toNat))

private theorem text_numbered (words : List String) (n : Option Nat) :
    (numbered words n).text = Dialect.sized (Text.join [' '] (words.map String.toList)) n := by
  cases n with
  | none => simp [numbered, text, name, zoneWords, Dialect.sized]
  | some n =>
    simp [numbered, text, name, length, zoneWords, Dialect.sized, Argument.lexeme, Text.join]

theorem text_numbered_single (word : String) (n : Option Nat) :
    (numbered [word] n).text = Dialect.sized word.toList n := by
  rw [text_numbered]
  simp [Text.join]

private theorem text_ofDecimal (word : String) (precision scale : Option UInt32) :
    (ofDecimal word precision scale).text = Dialect.decimal word.toList precision scale := by
  cases precision with
  | none => exact text_numbered_single _ _
  | some p =>
    cases scale with
    | none => exact text_numbered_single _ _
    | some s =>
      simp [ofDecimal, Dialect.decimal, text, name, length, zoneWords, Argument.lexeme, Text.join]

private theorem values_numbered (words : List String) (n : Option Nat) :
    (numbered words n).values = [] := by
  cases n <;> rfl

private theorem length?_numbered {words : List String} {n : Option Nat} {values : List Text}
    (h : ∀ m ∈ n, 0 < m ∧ m < UInt32.size) :
    Qualifier.length? ⟨Text.trim (numbered words n).length, values⟩ = n.map UInt32.ofNat := by
  rw [trim_length]
  cases n with
  | none => rfl
  | some n =>
    have hl : (numbered words (some n)).length = Text.ofNat n := by
      simp [numbered, length, Argument.lexeme, Text.join]
    rw [Qualifier.length?, hl, Qualifier.positive?_ofNat (h n rfl).1 (h n rfl).2]
    rfl

private theorem precision?_ofDecimal {word : String} {precision scale : Option UInt32}
    {values : List Text} (h : ∀ m ∈ precision, 0 < m) :
    Qualifier.precision? ⟨Text.trim (ofDecimal word precision scale).length, values⟩ = precision ∧
    Qualifier.scale? ⟨Text.trim (ofDecimal word precision scale).length, values⟩ =
      if precision.isSome then scale else none := by
  cases precision with
  | none => exact ⟨rfl, rfl⟩
  | some p =>
    have hp := Qualifier.positive?_toNat (h p rfl)
    cases scale with
    | none =>
      have hl : (ofDecimal word (some p) none).length = Text.ofNat p.toNat := by
        simp [ofDecimal, numbered, length, Argument.lexeme, Text.join]
      rw [hl, Qualifier.precision?, Qualifier.scale?, Qualifier.parts_single]
      exact ⟨hp, rfl⟩
    | some s =>
      have hl : (ofDecimal word (some p) (some s)).length =
          Text.ofNat p.toNat ++ ',' :: Text.ofNat s.toNat := by
        simp [ofDecimal, length, Argument.lexeme, Text.join]
      rw [hl, Qualifier.precision?, Qualifier.scale?, Qualifier.parts_pair]
      exact ⟨hp, Qualifier.unsigned?_toNat s⟩

end TypePhrase

namespace Dialect

def sqlitePhrase : ColumnType → TypePhrase
  | .integer _ _ | .boolean | .bit _ | .year => numbered ["INTEGER"] none
  | .decimal _ _ | .money => numbered ["NUMERIC"] none
  | .float | .double => numbered ["REAL"] none
  | .char length => numbered ["NCHAR"] (length.map (·.toNat))
  | .varchar length => numbered ["NVARCHAR"] (length.map (·.toNat))
  | .text _ | .date | .time _ | .dateTime | .timestamp _ | .json _ | .uuid =>
    numbered ["TEXT"] none
  | .blob _ | .binary _ _ => numbered ["BLOB"] none
  | .enumeration values | .set values =>
    numbered ["NVARCHAR"] (some (enumerationWidth values))

def mysqlIntegerName : IntegerSize → String
  | .tiny => "TINYINT"
  | .small => "SMALLINT"
  | .medium => "MEDIUMINT"
  | .int => "INT"
  | .big => "BIGINT"

def mysqlTextName : SizeClass → String
  | .tiny => "TINYTEXT"
  | .regular => "TEXT"
  | .medium => "MEDIUMTEXT"
  | .long => "LONGTEXT"

def mysqlBlobName : SizeClass → String
  | .tiny => "TINYBLOB"
  | .regular => "BLOB"
  | .medium => "MEDIUMBLOB"
  | .long => "LONGBLOB"

def mysqlPhrase : ColumnType → TypePhrase
  | .integer size width => numbered [mysqlIntegerName size] (width.map (·.toNat))
  | .boolean => numbered ["TINYINT"] (some 1)
  | .bit length => numbered ["BIT"] (length.map (·.toNat))
  | .decimal precision scale => ofDecimal "DECIMAL" precision scale
  | .money => ofDecimal "DECIMAL" (some 19) (some 4)
  | .float => numbered ["FLOAT"] none
  | .double => numbered ["DOUBLE"] none
  | .char length => numbered ["CHAR"] (length.map (·.toNat))
  | .varchar length => numbered ["VARCHAR"] (some (length.getD 255).toNat)
  | .text size => numbered [mysqlTextName size] none
  | .date => numbered ["DATE"] none
  | .time _ => numbered ["TIME"] none
  | .dateTime => numbered ["DATETIME"] none
  | .timestamp _ => numbered ["TIMESTAMP"] none
  | .year => numbered ["YEAR"] none
  | .json _ => numbered ["JSON"] none
  | .uuid => numbered ["CHAR"] (some 36)
  | .blob size => numbered [mysqlBlobName size] none
  | .binary length false => numbered ["BINARY"] (length.map (·.toNat))
  | .binary length true => numbered ["VARBINARY"] (some (length.getD 255).toNat)
  | .enumeration values => { words := ["enum"], arguments := some (values.map .literal) }
  | .set values => { words := ["set"], arguments := some (values.map .literal) }

def postgresIntegerName : IntegerSize → String
  | .tiny | .small => "SMALLINT"
  | .medium | .int => "INTEGER"
  | .big => "BIGINT"

def postgresPhrase : ColumnType → TypePhrase
  | .integer size _ => numbered [postgresIntegerName size] none
  | .boolean => numbered ["BOOLEAN"] none
  | .bit length => numbered ["BIT"] (length.map (·.toNat))
  | .decimal precision scale => ofDecimal "NUMERIC" precision scale
  | .float => numbered ["REAL"] none
  | .double => numbered ["DOUBLE", "PRECISION"] none
  | .money => numbered ["MONEY"] none
  | .char length => numbered ["CHARACTER"] (length.map (·.toNat))
  | .varchar length => numbered ["CHARACTER", "VARYING"] (length.map (·.toNat))
  | .text _ => numbered ["TEXT"] none
  | .date => numbered ["DATE"] none
  | .time zone => { words := ["TIME"], zone := some zone }
  | .timestamp zone => { words := ["TIMESTAMP"], zone := some zone }
  | .dateTime => { words := ["TIMESTAMP"], zone := some false }
  | .year => numbered ["SMALLINT"] none
  | .json true => numbered ["JSONB"] none
  | .json false => numbered ["JSON"] none
  | .uuid => numbered ["UUID"] none
  | .blob _ | .binary _ _ => numbered ["BYTEA"] none
  | .enumeration values | .set values =>
    numbered ["CHARACTER", "VARYING"] (some (enumerationWidth values))

/-- What a dialect writes for a type. -/
def phrase (d : Dialect) (type : ColumnType) : TypePhrase :=
  match d.family with
  | .sqlite => sqlitePhrase type
  | .mysql => mysqlPhrase type
  | .postgres => postgresPhrase type

private theorem text_sqlitePhrase (type : ColumnType) :
    (sqlitePhrase type).text = sqliteType type := by
  cases type <;> exact text_numbered_single _ _

private theorem text_enumeration (word : String) (values : List Text) :
    ({ words := [word], arguments := some (values.map .literal) } : TypePhrase).text =
      word.toList ++ '(' :: (literals values ++ [')']) := by
  have hv : (values.map Argument.literal).map (·.lexeme.text) = values.map quoteLiteral := by
    simp [Function.comp_def, Argument.lexeme]
  simp only [TypePhrase.text, length, hv]
  simp [TypePhrase.name, zoneWords, Text.join, literals]

private theorem text_mysqlPhrase (type : ColumnType) :
    (mysqlPhrase type).text = mysqlType type := by
  cases type with
  | integer size width => cases size <;> exact text_numbered_single _ _
  | text size => cases size <;> exact text_numbered_single _ _
  | blob size => cases size <;> exact text_numbered_single _ _
  | decimal precision scale => exact text_ofDecimal _ _ _
  | money => exact text_ofDecimal _ _ _
  | binary length varying => cases varying <;> exact text_numbered_single _ _
  | enumeration values => exact text_enumeration _ values
  | set values => exact text_enumeration _ values
  | _ => exact text_numbered_single _ _

private theorem text_postgresPhrase (type : ColumnType) :
    (postgresPhrase type).text = postgresType type := by
  cases type with
  | integer size width => cases size <;> exact text_numbered_single _ _
  | decimal precision scale => exact text_ofDecimal _ _ _
  | double => exact text_numbered _ _
  | varchar length => exact text_numbered _ _
  | enumeration values => exact text_numbered _ _
  | set values => exact text_numbered _ _
  | time zone => cases zone <;> rfl
  | timestamp zone => cases zone <;> rfl
  | dateTime => rfl
  | json binary => cases binary <;> exact text_numbered_single _ _
  | _ => exact text_numbered_single _ _

theorem text_phrase (d : Dialect) (type : ColumnType) : (d.phrase type).text = d.typeName type := by
  cases d with
  | sqlite => exact text_sqlitePhrase type
  | mysql => exact text_mysqlPhrase type
  | mariadb => exact text_mysqlPhrase type
  | postgres => exact text_postgresPhrase type

/-- The length of the text that stores an enumeration. A width of zero says nothing. -/
def storedWidth (values : List Text) : Option UInt32 :=
  (some (UInt32.ofNat (enumerationWidth values))).filter (0 < ·)

/-- A type as SQLite stores it. -/
def sqliteStored : ColumnType → ColumnType
  | .integer _ _ | .boolean | .bit _ | .year => .integer .int none
  | .decimal _ _ | .money => .decimal none none
  | .float | .double => .float
  | .char length => .char length
  | .varchar length => .varchar length
  | .text _ | .date | .time _ | .dateTime | .timestamp _ | .json _ | .uuid => .text .regular
  | .blob _ | .binary _ _ => .blob .regular
  | .enumeration values | .set values => .varchar (storedWidth values)

/-- A decimal type without the scale that nothing precedes. -/
def storedDecimal (precision scale : Option UInt32) : ColumnType :=
  .decimal precision (if precision.isSome then scale else none)

/-- A type as MySQL stores it. -/
def mysqlStored : ColumnType → ColumnType
  | .boolean => .integer .tiny (some 1)
  | .decimal precision scale => storedDecimal precision scale
  | .money => .decimal (some 19) (some 4)
  | .varchar length => .varchar (some (length.getD 255))
  | .time _ => .time false
  | .timestamp _ => .timestamp false
  | .json _ => .json false
  | .uuid => .char (some 36)
  | .binary length true => .binary (some (length.getD 255)) true
  | type => type

def postgresStoredSize : IntegerSize → IntegerSize
  | .tiny | .small => .small
  | .medium | .int => .int
  | .big => .big

/-- A type as PostgreSQL stores it. -/
def postgresStored : ColumnType → ColumnType
  | .integer size _ => .integer (postgresStoredSize size) none
  | .decimal precision scale => storedDecimal precision scale
  | .text _ => .text .regular
  | .dateTime => .timestamp false
  | .year => .integer .small none
  | .blob _ | .binary _ _ => .blob .regular
  | .enumeration values | .set values => .varchar (storedWidth values)
  | type => type

/-- The type that a dialect stores in place of a type. -/
def storedType (d : Dialect) (type : ColumnType) : ColumnType :=
  match d.family with
  | .sqlite => sqliteStored type
  | .mysql => mysqlStored type
  | .postgres => postgresStored type

theorem wellFormed_numbered {words : List String} (n : Option Nat) (h : words ∈ names) :
    (numbered words n).WellFormed where
  words := h
  plain a ha := by
    cases n with
    | none => simp [numbered] at ha
    | some n =>
      obtain rfl : a = .number n := by simpa [numbered] using ha
      trivial
  zone := nofun

private theorem wellFormed_ofDecimal {word : String} (precision scale : Option UInt32)
    (h : [word] ∈ names) : (ofDecimal word precision scale).WellFormed := by
  cases precision with
  | none => exact wellFormed_numbered _ h
  | some p =>
    cases scale with
    | none => exact wellFormed_numbered _ h
    | some s =>
      refine ⟨h, fun a ha => ?_, nofun⟩
      rcases (by simpa [ofDecimal] using ha : a = .number p.toNat ∨ a = .number s.toNat)
        with rfl | rfl <;> trivial

private theorem wellFormed_enumeration {word : String} {values : List Text} (h : [word] ∈ names)
    (hv : ∀ v ∈ values, Text.Plain v) :
    ({ words := [word], arguments := some (values.map .literal) } : TypePhrase).WellFormed where
  words := h
  plain a ha := by
    obtain ⟨v, hm, rfl⟩ := List.mem_map.1 ha
    exact hv v hm
  zone := nofun

end Dialect

/-- The values of an enumeration are plain. -/
def ColumnType.Plain : ColumnType → Prop
  | enumeration values | set values => ∀ v ∈ values, Text.Plain v
  | _ => True

namespace Dialect

private theorem wellFormed_sqlitePhrase (type : ColumnType) : (sqlitePhrase type).WellFormed := by
  cases type <;> exact wellFormed_numbered _ (by simp [names])

private theorem wellFormed_mysqlPhrase {type : ColumnType} (h : type.Plain) :
    (mysqlPhrase type).WellFormed := by
  cases type with
  | integer size width =>
    cases size <;> exact wellFormed_numbered _ (by simp [mysqlIntegerName, names])
  | text size => cases size <;> exact wellFormed_numbered _ (by simp [mysqlTextName, names])
  | blob size => cases size <;> exact wellFormed_numbered _ (by simp [mysqlBlobName, names])
  | decimal precision scale => exact wellFormed_ofDecimal _ _ (by simp [names])
  | money => exact @wellFormed_ofDecimal "DECIMAL" (some 19) (some 4) (by simp [names])
  | binary length varying => cases varying <;> exact wellFormed_numbered _ (by simp [names])
  | enumeration values => exact @wellFormed_enumeration "enum" values (by simp [names]) h
  | set values => exact @wellFormed_enumeration "set" values (by simp [names]) h
  | _ => exact wellFormed_numbered _ (by simp [names])

private theorem wellFormed_postgresPhrase (type : ColumnType) :
    (postgresPhrase type).WellFormed := by
  cases type with
  | integer size width =>
    cases size <;> exact wellFormed_numbered _ (by simp [postgresIntegerName, names])
  | decimal precision scale => exact wellFormed_ofDecimal _ _ (by simp [names])
  | json binary => cases binary <;> exact wellFormed_numbered _ (by simp [names])
  | time zone => exact ⟨by simp [postgresPhrase, names], nofun, fun _ => .inl rfl⟩
  | timestamp zone => exact ⟨by simp [postgresPhrase, names], nofun, fun _ => .inr rfl⟩
  | dateTime => exact ⟨by simp [postgresPhrase, names], nofun, fun _ => .inr rfl⟩
  | _ => exact wellFormed_numbered _ (by simp [names])

theorem wellFormed_phrase (d : Dialect) {type : ColumnType} (h : d.family = .mysql → type.Plain) :
    (d.phrase type).WellFormed := by
  cases d with
  | sqlite => exact wellFormed_sqlitePhrase type
  | mysql => exact wellFormed_mysqlPhrase (h rfl)
  | mariadb => exact wellFormed_mysqlPhrase (h rfl)
  | postgres => exact wellFormed_postgresPhrase type

private theorem decimal_stored (base : Text) (precision scale : Option UInt32) :
    decimal base precision (if precision.isSome then scale else none) =
      decimal base precision scale := by
  cases precision <;> rfl

private theorem storedWidth_of_pos {values : List Text} (h : 0 < enumerationWidth values) :
    storedWidth values = some (UInt32.ofNat (enumerationWidth values)) := by
  rw [storedWidth, Option.filter_some, if_pos]
  rw [decide_eq_true_eq, UInt32.lt_iff_toNat_lt, enumerationWidth, UInt32.ofNat_toNat]
  exact h

private theorem storedWidth_of_zero {values : List Text} (h : enumerationWidth values = 0) :
    storedWidth values = none := by
  rw [storedWidth, h]
  rfl

/-- A stored width is written again, unless it is zero. -/
theorem sized_storedWidth (base : Text) (values : List Text) :
    Text.Narrows (0 < enumerationWidth values) (sizedBy base (storedWidth values))
      (sized base (some (enumerationWidth values))) := by
  refine ⟨fun h => ?_, fun h => ?_⟩
  · rw [storedWidth_of_pos h, sizedBy, Option.map_some, enumerationWidth, UInt32.ofNat_toNat]
  · rw [storedWidth_of_zero (Nat.eq_zero_of_not_pos h)]
    simp [sizedBy, sized]

/-- A stored type is written as the type in whose place it stands, if that type fits. -/
theorem typeName_storedType (d : Dialect) (type : ColumnType) :
    Text.Narrows (type.Fits d) (d.typeName (d.storedType type)) (d.typeName type) := by
  cases hd : d.family with
  | sqlite =>
    simp only [typeName, storedType, hd]
    have hfits : ∀ values, 0 < enumerationWidth values ↔
        (d.family ≠ .mysql → 0 < enumerationWidth values) :=
      fun values => ⟨fun h _ => h, fun h => h (by simp [hd])⟩
    cases type with
    | enumeration values => exact (sized_storedWidth "NVARCHAR" values).congr (hfits values)
    | set values => exact (sized_storedWidth "NVARCHAR" values).congr (hfits values)
    | _ => exact .of_eq trivial rfl
  | mysql =>
    simp only [typeName, storedType, hd]
    cases type with
    | decimal precision scale => exact .of_eq trivial (decimal_stored _ precision scale)
    | binary length varying => cases varying <;> exact .of_eq trivial rfl
    | enumeration values => exact .of_eq (fun h => absurd hd h) rfl
    | set values => exact .of_eq (fun h => absurd hd h) rfl
    | _ => exact .of_eq trivial rfl
  | postgres =>
    simp only [typeName, storedType, hd]
    have hfits : ∀ values, 0 < enumerationWidth values ↔
        (d.family ≠ .mysql → 0 < enumerationWidth values) :=
      fun values => ⟨fun h _ => h, fun h => h (by simp [hd])⟩
    cases type with
    | integer size width => cases size <;> exact .of_eq trivial rfl
    | decimal precision scale => exact .of_eq trivial (decimal_stored _ precision scale)
    | time zone => cases zone <;> exact .of_eq trivial rfl
    | timestamp zone => cases zone <;> exact .of_eq trivial rfl
    | json binary => cases binary <;> exact .of_eq trivial rfl
    | enumeration values =>
      exact (sized_storedWidth "CHARACTER VARYING" values).congr (hfits values)
    | set values =>
      exact (sized_storedWidth "CHARACTER VARYING" values).congr (hfits values)
    | _ => exact .of_eq trivial rfl

theorem isNumeric_storedType (d : Dialect) {type : ColumnType} (h : type.isNumeric = true) :
    (d.storedType type).isNumeric = true := by
  cases type with
  | integer size width => cases d <;> rfl
  | decimal precision scale => cases d <;> rfl
  | float => cases d <;> rfl
  | double => cases d <;> rfl
  | _ => cases h

theorem type?_numbered {words : List String} {n : Option UInt32}
    {f : Option UInt32 → ColumnType} {key : String}
    (hm : (key, fun q : Qualifier => f q.length?) ∈ vocabulary)
    (hn : plainName (Text.join [' '] (words.map String.toList)) = key.toList)
    (h : ∀ m ∈ n, 0 < m) : (numbered words (n.map (·.toNat))).type? = some (f n) := by
  have hl : ∀ m ∈ n.map (·.toNat), 0 < m ∧ m < UInt32.size := by
    intro m hm
    obtain ⟨k, hk, rfl⟩ := Option.map_eq_some_iff.1 hm
    exact ⟨UInt32.lt_iff_toNat_lt.1 (h k hk), k.toNat_lt⟩
  have hname : (numbered words (n.map (·.toNat))).typeName =
      Text.join [' '] (words.map String.toList) := List.append_nil _
  rw [TypePhrase.type?, hname, ofSource?_of_mem hm hn]
  change some (f (Qualifier.length? ⟨Text.trim (numbered words (n.map (·.toNat))).length, _⟩)) = _
  rw [length?_numbered hl]
  simp [Option.map_map, Function.comp_def]

theorem type?_constant {words : List String} {zone : Option Bool} {key : String}
    {type : ColumnType} (hm : (key, fun _ : Qualifier => type) ∈ vocabulary)
    (hn : plainName (Text.join [' '] (words.map String.toList) ++ zoneName zone) = key.toList) :
    ({ words, zone } : TypePhrase).type? = some type :=
  (ofSource?_of_mem hm hn _ _).trans rfl

private theorem typeName_ofDecimal (word : String) (precision scale : Option UInt32) :
    (ofDecimal word precision scale).typeName = word.toList := by
  have hname : ∀ p : TypePhrase, p.words = [word] → p.zone = none → p.typeName = word.toList := by
    intro p hw hz
    have hj : Text.join [' '] ([word].map String.toList) = word.toList := by simp [Text.join]
    rw [TypePhrase.typeName, TypePhrase.name, hw, hz, hj]
    exact List.append_nil _
  cases precision with
  | none => exact hname _ rfl rfl
  | some p => cases scale <;> exact hname _ rfl rfl

theorem type?_ofDecimal {word key : String} {precision scale : Option UInt32}
    (hm : (key, fun q : Qualifier => ColumnType.decimal q.precision? q.scale?) ∈ vocabulary)
    (hn : plainName word.toList = key.toList) (h : ∀ m ∈ precision, 0 < m) :
    (ofDecimal word precision scale).type? = some (storedDecimal precision scale) := by
  obtain ⟨hp, hs⟩ := @precision?_ofDecimal word precision scale
    (ofDecimal word precision scale).values h
  rw [TypePhrase.type?, typeName_ofDecimal, ofSource?_of_mem hm hn, storedDecimal, ← hs]
  exact congrArg (fun p => some (ColumnType.decimal p _)) hp

/-- The width of an enumeration is read back as the length of a text. -/
theorem type?_enumerationWidth {words : List String} {key : String} (values : List Text)
    (hm : (key, fun q : Qualifier => ColumnType.varchar q.length?) ∈ vocabulary)
    (hn : plainName (Text.join [' '] (words.map String.toList)) = key.toList) :
    (numbered words (some (enumerationWidth values))).type? =
      some (.varchar (storedWidth values)) := by
  rcases Nat.eq_zero_or_pos (enumerationWidth values) with hw | hw
  · have hname : (numbered words (some 0)).typeName = Text.join [' '] (words.map String.toList) :=
      List.append_nil _
    rw [storedWidth_of_zero hw, hw, TypePhrase.type?, hname, ofSource?_of_mem hm hn]
    rfl
  · have htoNat : (UInt32.ofNat (enumerationWidth values)).toNat = enumerationWidth values := by
      rw [enumerationWidth, UInt32.ofNat_toNat]
    have hpos : 0 < UInt32.ofNat (enumerationWidth values) := by
      rw [UInt32.lt_iff_toNat_lt, htoNat]
      exact hw
    have ht := type?_numbered (n := some (UInt32.ofNat (enumerationWidth values))) hm hn
      (fun m hm => Option.some.inj hm ▸ hpos)
    rw [storedWidth_of_pos hw]
    rwa [Option.map_some, htoNat] at ht

private theorem type?_sqlitePhrase {type : ColumnType} (hs : type.Sized) :
    (sqlitePhrase type).type? = some (sqliteStored type) := by
  have hinteger := @type?_numbered ["INTEGER"] none (.integer .int) "integer"
    (by simp [vocabulary]) (by decide) nofun
  have hnumeric := @type?_ofDecimal "NUMERIC" "numeric" none none (by simp [vocabulary])
    (by decide) nofun
  have hreal := @type?_constant ["REAL"] none "real" .float (by simp [vocabulary])
    (by decide)
  have htext := @type?_constant ["TEXT"] none "text" (.text .regular)
    (by simp [vocabulary]) (by decide)
  have hblob := @type?_constant ["BLOB"] none "blob" (.blob .regular)
    (by simp [vocabulary]) (by decide)
  have hvarchar : ("nvarchar", fun q : Qualifier => ColumnType.varchar q.length?) ∈ vocabulary := by
    simp [vocabulary]
  have hname : plainName (Text.join [' '] (["NVARCHAR"].map String.toList)) =
    "nvarchar".toList := by decide
  cases type with
  | integer size width => exact hinteger
  | boolean => exact hinteger
  | bit length => exact hinteger
  | year => exact hinteger
  | decimal precision scale => exact hnumeric
  | money => exact hnumeric
  | float => exact hreal
  | double => exact hreal
  | char length =>
    exact @type?_numbered ["NCHAR"] length .char "nchar" (by simp [vocabulary])
      (by decide) hs
  | varchar length => exact type?_numbered hvarchar hname hs
  | blob size => exact hblob
  | binary length varying => exact hblob
  | enumeration values => exact type?_enumerationWidth values hvarchar hname
  | set values => exact type?_enumerationWidth values hvarchar hname
  | _ => exact htext

private theorem positive_getD {n : Option UInt32} (h : ∀ m ∈ n, 0 < m) :
    ∀ m ∈ some (n.getD 255), 0 < m := by
  intro m hm
  obtain rfl := Option.some.inj hm
  cases n with
  | none => decide
  | some n => exact h n rfl

private theorem type?_values {word key : String} {f : List Text → ColumnType} {values : List Text}
    (hm : (key, fun q : Qualifier => f q.values) ∈ vocabulary)
    (hn : plainName (Text.join [' '] ([word].map String.toList) ++ zoneName none) = key.toList) :
    ({ words := [word], arguments := some (values.map .literal) } : TypePhrase).type? =
      some (f values) := by
  have hv : (values.map Argument.literal).filterMap Argument.value? = values := by
    simp [List.filterMap_map, Function.comp_def, Argument.value?]
  refine (ofSource?_of_mem hm hn _ _).trans ?_
  exact congrArg (fun v => some (f v)) hv

private theorem type?_mysqlInteger (size : IntegerSize) {width : Option UInt32}
    (h : ∀ m ∈ width, 0 < m) :
    (numbered [mysqlIntegerName size] (width.map (·.toNat))).type? =
      some (.integer size width) := by
  cases size with
  | tiny =>
    exact @type?_numbered ["TINYINT"] width (.integer .tiny) "tinyint" (by simp [vocabulary])
      (by decide) h
  | small =>
    exact @type?_numbered ["SMALLINT"] width (.integer .small) "smallint" (by simp [vocabulary])
      (by decide) h
  | medium =>
    exact @type?_numbered ["MEDIUMINT"] width (.integer .medium) "mediumint" (by simp [vocabulary])
      (by decide) h
  | int =>
    exact @type?_numbered ["INT"] width (.integer .int) "int" (by simp [vocabulary]) (by decide) h
  | big =>
    exact @type?_numbered ["BIGINT"] width (.integer .big) "bigint" (by simp [vocabulary])
      (by decide) h

private theorem type?_mysqlText (size : SizeClass) :
    (numbered [mysqlTextName size] none).type? = some (.text size) := by
  cases size with
  | tiny =>
    exact @type?_constant ["TINYTEXT"] none "tinytext" (.text .tiny) (by simp [vocabulary])
      (by decide)
  | regular =>
    exact @type?_constant ["TEXT"] none "text" (.text .regular) (by simp [vocabulary]) (by decide)
  | medium =>
    exact @type?_constant ["MEDIUMTEXT"] none "mediumtext" (.text .medium) (by simp [vocabulary])
      (by decide)
  | long =>
    exact @type?_constant ["LONGTEXT"] none "longtext" (.text .long) (by simp [vocabulary])
      (by decide)

private theorem type?_mysqlBlob (size : SizeClass) :
    (numbered [mysqlBlobName size] none).type? = some (.blob size) := by
  cases size with
  | tiny =>
    exact @type?_constant ["TINYBLOB"] none "tinyblob" (.blob .tiny) (by simp [vocabulary])
      (by decide)
  | regular =>
    exact @type?_constant ["BLOB"] none "blob" (.blob .regular) (by simp [vocabulary]) (by decide)
  | medium =>
    exact @type?_constant ["MEDIUMBLOB"] none "mediumblob" (.blob .medium) (by simp [vocabulary])
      (by decide)
  | long =>
    exact @type?_constant ["LONGBLOB"] none "longblob" (.blob .long) (by simp [vocabulary])
      (by decide)

private theorem type?_mysqlPhrase {type : ColumnType} (hs : type.Sized) :
    (mysqlPhrase type).type? = some (mysqlStored type) := by
  have hchar : ("char", fun q : Qualifier => ColumnType.char q.length?) ∈ vocabulary := by
    simp [vocabulary]
  have hdecimal : ("decimal", fun q : Qualifier => ColumnType.decimal q.precision? q.scale?) ∈
    vocabulary := by simp [vocabulary]
  cases type with
  | integer size width => exact type?_mysqlInteger size hs
  | boolean => exact @type?_mysqlInteger .tiny (some 1) (by simp)
  | bit length =>
    exact @type?_numbered ["BIT"] length .bit "bit" (by simp [vocabulary]) (by decide) hs
  | decimal precision scale => exact @type?_ofDecimal "DECIMAL" _ _ _ hdecimal (by decide) hs
  | money => exact @type?_ofDecimal "DECIMAL" _ (some 19) (some 4) hdecimal (by decide) (by simp)
  | float =>
    exact @type?_constant ["FLOAT"] none "float" .float (by simp [vocabulary]) (by decide)
  | double =>
    exact @type?_constant ["DOUBLE"] none "double" .double (by simp [vocabulary]) (by decide)
  | char length => exact @type?_numbered ["CHAR"] _ _ _ hchar (by decide) hs
  | varchar length =>
    exact @type?_numbered ["VARCHAR"] (some (length.getD 255)) .varchar "varchar"
      (by simp [vocabulary]) (by decide) (positive_getD hs)
  | text size => exact type?_mysqlText size
  | date => exact @type?_constant ["DATE"] none "date" .date (by simp [vocabulary]) (by decide)
  | time zone =>
    exact @type?_constant ["TIME"] none "time" (.time false) (by simp [vocabulary]) (by decide)
  | dateTime =>
    exact @type?_constant ["DATETIME"] none "datetime" .dateTime (by simp [vocabulary]) (by decide)
  | timestamp zone =>
    exact @type?_constant ["TIMESTAMP"] none "timestamp" (.timestamp false) (by simp [vocabulary])
      (by decide)
  | year => exact @type?_constant ["YEAR"] none "year" .year (by simp [vocabulary]) (by decide)
  | json binary =>
    exact @type?_constant ["JSON"] none "json" (.json false) (by simp [vocabulary]) (by decide)
  | uuid => exact @type?_numbered ["CHAR"] (some 36) _ _ hchar (by decide) (by simp)
  | blob size => exact type?_mysqlBlob size
  | binary length varying =>
    cases varying with
    | false =>
      exact @type?_numbered ["BINARY"] length (.binary · false) "binary" (by simp [vocabulary])
        (by decide) hs
    | true =>
      exact @type?_numbered ["VARBINARY"] (some (length.getD 255)) (.binary · true) "varbinary"
        (by simp [vocabulary]) (by decide) (positive_getD hs)
  | enumeration values =>
    exact @type?_values "enum" "enum" .enumeration values (by simp [vocabulary]) (by decide)
  | set values => exact @type?_values "set" "set" .set values (by simp [vocabulary]) (by decide)

private theorem type?_postgresInteger (size : IntegerSize) :
    (numbered [postgresIntegerName size] none).type? =
      some (.integer (postgresStoredSize size) none) := by
  have hsmall := @type?_numbered ["SMALLINT"] none (.integer .small) "smallint"
    (by simp [vocabulary]) (by decide) nofun
  have hint := @type?_numbered ["INTEGER"] none (.integer .int) "integer" (by simp [vocabulary])
    (by decide) nofun
  cases size with
  | tiny => exact hsmall
  | small => exact hsmall
  | medium => exact hint
  | int => exact hint
  | big =>
    exact @type?_numbered ["BIGINT"] none (.integer .big) "bigint" (by simp [vocabulary])
      (by decide) nofun

private theorem type?_time (zone : Bool) :
    ({ words := ["TIME"], zone := some zone } : TypePhrase).type? = some (.time zone) := by
  cases zone with
  | false =>
    exact @type?_constant ["TIME"] (some false) "time without time zone" (.time false)
      (by simp [vocabulary]) (by decide)
  | true =>
    exact @type?_constant ["TIME"] (some true) "time with time zone" (.time true)
      (by simp [vocabulary]) (by decide)

private theorem type?_timestamp (zone : Bool) :
    ({ words := ["TIMESTAMP"], zone := some zone } : TypePhrase).type? =
      some (.timestamp zone) := by
  cases zone with
  | false =>
    exact @type?_constant ["TIMESTAMP"] (some false) "timestamp without time zone"
      (.timestamp false) (by simp [vocabulary]) (by decide)
  | true =>
    exact @type?_constant ["TIMESTAMP"] (some true) "timestamp with time zone" (.timestamp true)
      (by simp [vocabulary]) (by decide)

private theorem type?_postgresPhrase {type : ColumnType} (hs : type.Sized) :
    (postgresPhrase type).type? = some (postgresStored type) := by
  have hvarchar : ("character varying", fun q : Qualifier => ColumnType.varchar q.length?) ∈
    vocabulary := by simp [vocabulary]
  have hname : plainName (Text.join [' '] (["CHARACTER", "VARYING"].map String.toList)) =
    "character varying".toList := by decide
  have hblob := @type?_constant ["BYTEA"] none "bytea" (.blob .regular) (by simp [vocabulary])
    (by decide)
  cases type with
  | integer size width => exact type?_postgresInteger size
  | boolean =>
    exact @type?_constant ["BOOLEAN"] none "boolean" .boolean (by simp [vocabulary]) (by decide)
  | bit length =>
    exact @type?_numbered ["BIT"] length .bit "bit" (by simp [vocabulary]) (by decide) hs
  | decimal precision scale =>
    exact @type?_ofDecimal "NUMERIC" "numeric" precision scale (by simp [vocabulary])
      (by decide) hs
  | money => exact @type?_constant ["MONEY"] none "money" .money (by simp [vocabulary]) (by decide)
  | float => exact @type?_constant ["REAL"] none "real" .float (by simp [vocabulary]) (by decide)
  | double =>
    exact @type?_constant ["DOUBLE", "PRECISION"] none "double precision" .double
      (by simp [vocabulary]) (by decide)
  | char length =>
    exact @type?_numbered ["CHARACTER"] length .char "character" (by simp [vocabulary])
      (by decide) hs
  | varchar length => exact type?_numbered hvarchar hname hs
  | text size =>
    exact @type?_constant ["TEXT"] none "text" (.text .regular) (by simp [vocabulary]) (by decide)
  | date => exact @type?_constant ["DATE"] none "date" .date (by simp [vocabulary]) (by decide)
  | time zone => exact type?_time zone
  | dateTime => exact type?_timestamp false
  | timestamp zone => exact type?_timestamp zone
  | year => exact type?_postgresInteger .small
  | json binary =>
    cases binary with
    | false =>
      exact @type?_constant ["JSON"] none "json" (.json false) (by simp [vocabulary]) (by decide)
    | true =>
      exact @type?_constant ["JSONB"] none "jsonb" (.json true) (by simp [vocabulary]) (by decide)
  | uuid => exact @type?_constant ["UUID"] none "uuid" .uuid (by simp [vocabulary]) (by decide)
  | blob size => exact hblob
  | binary length varying => exact hblob
  | enumeration values => exact type?_enumerationWidth values hvarchar hname
  | set values => exact type?_enumerationWidth values hvarchar hname

private theorem values_ofDecimal (word : String) (precision scale : Option UInt32) :
    (ofDecimal word precision scale).values = [] := by
  cases precision with
  | none => exact values_numbered _ _
  | some p => cases scale <;> rfl

/-- Only enumerations have values. -/
theorem values_phrase (d : Dialect) {type : ColumnType}
    (h : (d.phrase type).isEnumeration = false) : (d.phrase type).values = [] := by
  rw [phrase] at h ⊢
  cases hd : d.family with
  | sqlite => cases type <;> exact values_numbered _ _
  | mysql =>
    rw [hd] at h
    cases type with
    | decimal precision scale => exact values_ofDecimal _ _ _
    | money => exact values_ofDecimal _ _ _
    | binary length varying => cases varying <;> exact values_numbered _ _
    | enumeration values => exact absurd h (by simp [mysqlPhrase, TypePhrase.isEnumeration])
    | set values => exact absurd h (by simp [mysqlPhrase, TypePhrase.isEnumeration])
    | _ => exact values_numbered _ _
  | postgres =>
    cases type with
    | decimal precision scale => exact values_ofDecimal _ _ _
    | time zone => rfl
    | timestamp zone => rfl
    | dateTime => rfl
    | json binary => cases binary <;> exact values_numbered _ _
    | _ => exact values_numbered _ _

/-- What a dialect writes for a type is read back as the stored type. -/
theorem type?_phrase (d : Dialect) {type : ColumnType} (hs : type.Sized) :
    (d.phrase type).type? = some (d.storedType type) := by
  cases d with
  | sqlite => exact type?_sqlitePhrase hs
  | mysql => exact type?_mysqlPhrase hs
  | mariadb => exact type?_mysqlPhrase hs
  | postgres => exact type?_postgresPhrase hs

end Dialect

end TableDialects
