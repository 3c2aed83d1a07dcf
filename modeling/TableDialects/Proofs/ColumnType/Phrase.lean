import TableDialects.Dialect.TypeName
import TableDialects.Table.Fragment
import TableDialects.Proofs.ColumnType.Qualifier
import TableDialects.Proofs.Text.Doubled
import TableDialects.Proofs.Token.Phrase

/-!
# Type phrases

A type consists of the words of its name, a list in parentheses and a time zone. Its parts are
found again in what is written.
-/
namespace TableDialects

namespace Text

theorem join_cons_cons (s a b : Text) (ts : List Text) :
    join s (a :: b :: ts) = a ++ s ++ join s (b :: ts) := by
  simp [join]

theorem solid_join {ts : List Text} (hne : ts ≠ []) (s : Text) (h : ∀ t ∈ ts, Solid t) :
    Solid (join s ts) := by
  induction ts with
  | nil => exact absurd rfl hne
  | cons a ts ih =>
    have ha := h a List.mem_cons_self
    cases ts with
    | nil => simpa [join] using ha
    | cons b ts =>
      rw [join_cons_cons]
      exact ha.append s (ih (by simp) fun t ht => h t (List.mem_cons_of_mem a ht))

theorem trim_join {ts : List Text} (s : Text) (h : ∀ t ∈ ts, Solid t) :
    trim (join s ts) = join s ts := by
  by_cases hne : ts = []
  · rw [hne]
    rfl
  · exact (solid_join hne s h).trim

theorem solid_quoteLiteral (v : Text) : Solid (quoteLiteral v) where
  ne_nil := by simp [quoteLiteral, enclosed]
  head := by simpa [quoteLiteral, enclosed] using by decide
  last := by
    have : quoteLiteral v = '\'' :: doubled '\'' v ++ ['\''] := rfl
    rw [this, List.getLast?_append_of_ne_nil _ (by simp)]
    simpa using by decide

end Text

open Lexeme

/-- An entry in the parentheses after a type name. -/
inductive Argument where
  | number (n : Nat)
  | literal (value : Text)

namespace Argument

def lexeme : Argument → Lexeme
  | number n => ⟨[], Text.ofNat n, .number (Text.ofNat n)⟩
  | literal v => ⟨[], quoteLiteral v, .quoted '\'' v⟩

@[simp] theorem lexeme_gap (a : Argument) : a.lexeme.gap = [] := by
  cases a <;> rfl

def value? : Argument → Option Text
  | number _ => none
  | literal v => some v

def Plain : Argument → Prop
  | number _ => True
  | literal v => Text.Plain v

private theorem solid_text (a : Argument) : Text.Solid a.lexeme.text := by
  cases a with
  | number n => exact Text.solid_ofNat n
  | literal v => exact Text.solid_quoteLiteral v

private theorem not_mem_text {a : Argument} (h : a.Plain) : '\r' ∉ a.lexeme.text := by
  cases a with
  | number n => exact fun hm => absurd (Text.isDigit_of_mem_ofNat hm) (by decide)
  | literal v => exact Text.not_mem_enclosed (by decide) h.no_return

private theorem clear_lexeme {a : Argument} (h : a.Plain) : Clear [a.lexeme] [] := by
  cases a with
  | number n =>
    obtain ⟨c, cs, hn⟩ := List.exists_cons_of_ne_nil (Text.ofNat_ne_nil n)
    have hd : ∀ d ∈ c :: cs, d.isDigit = true := fun d hd =>
      Text.isDigit_of_mem_ofNat (hn ▸ hd)
    have hc := hd c List.mem_cons_self
    have hne : ∀ d, d.isDigit = false → c ≠ d := by
      rintro d h rfl
      simp [hc] at h
    refine ⟨⟨by simp [lexeme], ?_, ?_⟩, trivial⟩
    · simp only [lexeme, hn, source_nil, List.append_nil]
      refine startsToken_cons ?_ (hne _ (by decide)) (hne _ (by decide)) cs
      simp [isSeparator, hne]
    · simp only [lexeme, hn, source_nil, List.append_nil]
      exact .number hc (.whole hd rfl)
  | literal v =>
    refine ⟨⟨by simp [lexeme], ?_, written_quoteLiteral h.no_backslash (by simp)⟩, trivial⟩
    exact startsToken_cons (by decide) (by decide) (by decide) _

private theorem filterMap_value? {as : List Argument} :
    (entries (as.map fun a => [a.lexeme])).filterMap
      (fun l => match l.token with
        | .quoted _ value => some value
        | _ => none) = as.filterMap value? := by
  induction as with
  | nil => rfl
  | cons a as ih =>
    have ha : (match a.lexeme.token with
        | .quoted _ value => some value
        | _ => none) = a.value? := by cases a <;> rfl
    cases as with
    | nil => simp [entries, ha, List.filterMap_cons]
    | cons b as =>
      rw [List.map_cons, List.map_cons, entries_cons_cons, List.filterMap_append,
        List.filterMap_cons, List.filterMap_cons, List.filterMap_cons]
      rw [List.map_cons] at ih
      simp only [ha, ih, comma, List.filterMap_nil]
      cases a.value? <;> rfl

end Argument

/-- The words of a type name, the list after it, and whether it has a time zone, if it says so. -/
structure TypePhrase where
  words : List String
  arguments : Option (List Argument) := none
  zone : Option Bool := none

namespace TypePhrase

def zoneWords : Option Bool → List Text
  | none => []
  | some true => ["WITH", "TIME", "ZONE"]
  | some false => ["WITHOUT", "TIME", "ZONE"]

/-- The zone as it is added to the name that is read. -/
def zoneName : Option Bool → Text
  | none => []
  | some true => " with time zone"
  | some false => " without time zone"

variable (p : TypePhrase)

def name : Text := Text.join [' '] (p.words.map String.toList)

def typeName : Text := p.name ++ zoneName p.zone

/-- What stands between the parentheses. -/
def length : Text :=
  match p.arguments with
  | none => []
  | some as => Text.join [','] (as.map (·.lexeme.text))

def values : List Text := (p.arguments.getD []).filterMap Argument.value?

/-- The type that a phrase is read as. -/
def type? : Option ColumnType := ColumnType.ofSource? p.typeName p.length p.values

def list : List Lexeme :=
  match p.arguments with
  | none => []
  | some as => group [] (as.map fun a => [a.lexeme]) []

def text : Text :=
  p.name ++ (match p.arguments with
    | none => []
    | some _ => '(' :: (p.length ++ [')'])) ++ (zoneWords p.zone).flatMap (' ' :: ·)

/-- The words of the name. -/
def nameLexemes : List Lexeme := (p.words.map String.toList).map keyword

def lexemes : List Lexeme :=
  p.nameLexemes ++ (p.list ++ (zoneWords p.zone).map keyword)

/-- The names that the dialects have for types. -/
def names : List (List String) :=
  [["INTEGER"], ["NUMERIC"], ["REAL"], ["NCHAR"], ["NVARCHAR"], ["TEXT"], ["BLOB"], ["TINYINT"],
    ["SMALLINT"], ["MEDIUMINT"], ["INT"], ["BIGINT"], ["BIT"], ["DECIMAL"], ["FLOAT"], ["DOUBLE"],
    ["CHAR"], ["VARCHAR"], ["TINYTEXT"], ["MEDIUMTEXT"], ["LONGTEXT"], ["DATE"], ["TIME"],
    ["DATETIME"], ["TIMESTAMP"], ["YEAR"], ["JSON"], ["TINYBLOB"], ["MEDIUMBLOB"], ["LONGBLOB"],
    ["BINARY"], ["VARBINARY"], ["enum"], ["set"], ["BOOLEAN"], ["DOUBLE", "PRECISION"], ["MONEY"],
    ["CHARACTER"], ["CHARACTER", "VARYING"], ["JSONB"], ["UUID"], ["BYTEA"]]

structure WellFormed : Prop where
  words : p.words ∈ names
  plain : ∀ a ∈ p.arguments.getD [], a.Plain
  zone : p.zone.isSome = true → p.words = ["TIME"] ∨ p.words = ["TIMESTAMP"]

/-- Whether the list holds the values of an enumeration. -/
def isEnumeration : Bool :=
  (p.words == ["enum"] || p.words == ["set"]) && p.zone.isNone

section
variable {p}

private theorem facts_of_mem_names : ∀ ws ∈ names,
    (∀ w ∈ ws.map String.toList, IsWord w) ∧ ws ≠ [] ∧
    (ws.length = 1 ∨ ws = ["DOUBLE", "PRECISION"] ∨ ws = ["CHARACTER", "VARYING"]) := by
  decide

theorem isRecognized_of_mem_names : ∀ ws ∈ names,
    ColumnType.isRecognized (Text.join [' '] (ws.map String.toList)) = true := by
  decide

theorem isSerial_of_mem_names : ∀ ws ∈ names,
    ∀ z ∈ [none, some true, some false],
      ColumnType.isSerial (Text.join [' '] (ws.map String.toList) ++ zoneName z) = false := by
  decide

theorem isEnumeration_of_mem_names : ∀ ws ∈ names, ∀ z ∈ [none, some true, some false],
    ColumnType.isEnumeration (Text.join [' '] (ws.map String.toList) ++ zoneName z) =
      isEnumeration { words := ws, zone := z } := by
  decide

theorem mem_zones (z : Option Bool) : z ∈ [none, some true, some false] := by
  rcases z with _ | _ | _ <;> decide

theorem WellFormed.facts (h : p.WellFormed) :
    (∀ w ∈ p.words.map String.toList, IsWord w) ∧ p.words ≠ [] ∧
    (p.words.length = 1 ∨ p.words = ["DOUBLE", "PRECISION"] ∨
      p.words = ["CHARACTER", "VARYING"]) :=
  facts_of_mem_names p.words h.words

private theorem isWord_zoneWords (z : Option Bool) : ∀ w ∈ zoneWords z, IsWord w := by
  rcases z with _ | _ | _ <;> decide

private theorem source_words {ws : List Text} (h : ws ≠ []) :
    source (ws.map keyword) = ' ' :: Text.join [' '] ws := by
  induction ws with
  | nil => exact absurd rfl h
  | cons w ws ih =>
    cases ws with
    | nil => simp [keyword, Text.join]
    | cons v ws =>
      rw [List.map_cons, source_cons, ih (by simp), Text.join_cons_cons]
      simp [keyword]

private theorem source_list : source p.list = match p.arguments with
    | none => []
    | some _ => '(' :: (p.length ++ [')']) := by
  unfold list length
  split
  · rfl
  · rw [source_group]
    simp [Function.comp_def, Argument.lexeme_gap]

theorem source_lexemes (h : p.WellFormed) : source p.lexemes = ' ' :: p.text := by
  have hne : p.words.map String.toList ≠ [] := by simpa using h.facts.2.1
  rw [lexemes, source_append, source_append, nameLexemes, source_words hne, source_list,
    source_keywords, text, name]
  simp

private theorem apart_list (h : p.WellFormed) : Apart p.list := by
  unfold list
  have hp := h.plain
  split
  · exact apart_nil
  · next as hs =>
    refine apart_group (by simp) (by simp) fun e he => ?_
    obtain ⟨a, ha, rfl⟩ := List.mem_map.1 he
    exact Argument.clear_lexeme (hp a (by simpa [hs] using ha))

theorem apart_lexemes (h : p.WellFormed) : Apart p.lexemes :=
  (apart_keywords h.facts.1).append ((apart_list h).append (apart_keywords (isWord_zoneWords _)))

theorem enclosed_arguments (as : List Argument) :
    ∀ e ∈ as.map fun a => [a.lexeme], Token.Enclosed (e.map (·.token)) := by
  intro e he
  obtain ⟨a, -, rfl⟩ := List.mem_map.1 he
  cases a <;> rfl

theorem enclosed_lexemes : Token.Enclosed (p.lexemes.map (·.token)) := by
  have hl : Token.Enclosed (p.list.map (·.token)) := by
    unfold list
    split
    · rfl
    · exact enclosed_group (enclosed_arguments _)
  rw [lexemes, List.map_append, List.map_append]
  exact (enclosed_keywords _).append (hl.append (enclosed_keywords _))

theorem not_mem_join {c : Char} {s : Text} (hs : c ∉ s) {ts : List Text} (h : ∀ t ∈ ts, c ∉ t) :
    c ∉ Text.join s ts := by
  induction ts with
  | nil => simp [Text.join]
  | cons t ts ih =>
    have ht := h t List.mem_cons_self
    cases ts with
    | nil => simpa [Text.join] using ht
    | cons u ts =>
      have hrec := ih fun v hv => h v (List.mem_cons_of_mem t hv)
      rw [Text.join_cons_cons]
      simp [ht, hs, hrec]

private theorem not_mem_length (h : p.WellFormed) : '\r' ∉ p.length := by
  have hp := h.plain
  unfold length
  split
  · simp
  · next as hs =>
    refine not_mem_join (by simp) fun t ht => ?_
    obtain ⟨a, ha, rfl⟩ := List.mem_map.1 ht
    exact Argument.not_mem_text (hp a (by simpa [hs] using ha))

/-- No carriage return gets into a type. -/
theorem not_mem_text (h : p.WellFormed) : '\r' ∉ p.text := by
  have hname : ∀ ws ∈ names, '\r' ∉ Text.join [' '] (ws.map String.toList) := by decide
  have hzone : ∀ z ∈ [none, some true, some false],
      '\r' ∉ (zoneWords z).flatMap (' ' :: ·) := by decide
  have hl := not_mem_length h
  rw [text, name]
  split
  · simp only [List.append_nil, List.mem_append, not_or]
    exact ⟨hname _ h.words, hzone _ (mem_zones _)⟩
  · simp only [List.mem_append, List.mem_cons, not_or]
    exact ⟨⟨hname _ h.words, by decide, hl, by decide, by simp⟩, hzone _ (mem_zones _)⟩

theorem trim_length : Text.trim p.length = p.length := by
  unfold length
  split
  · rfl
  · refine Text.trim_join _ fun t ht => ?_
    obtain ⟨a, -, rfl⟩ := List.mem_map.1 ht
    exact a.solid_text

theorem stringLiterals_length (h : p.WellFormed) : stringLiterals p.length = p.values := by
  have hp := h.plain
  unfold length values
  split
  · next hs => simp [hs, stringLiterals, tokenize, lex_of_drop_nil]
  · next as hs =>
    have hc : Clear (entries (as.map fun a => [a.lexeme])) [] := clear_entries fun e he => by
      obtain ⟨a, ha, rfl⟩ := List.mem_map.1 he
      exact Argument.clear_lexeme (hp a (by simpa [hs] using ha))
    have ht := tokenize_source hc
    rw [source_entries, List.map_map] at ht
    have hsrc : as.map (source ∘ fun a => [a.lexeme]) = as.map (·.lexeme.text) := by
      simp [Function.comp_def, Argument.lexeme_gap]
    rw [hsrc] at ht
    rw [stringLiterals, ht, hs]
    exact Argument.filterMap_value?

/-- The words after a type name, which are those of a clause, are no part of it. -/
theorem typeName?_words (h : p.WellFormed) {rest : List Lexeme}
    (hr : ∀ l ∈ rest.head?, l.token.isOneOf ["precision", "varying"] = false) :
    Fragment.typeName? (p.nameLexemes ++ rest) = some (p.name, rest) := by
  obtain ⟨-, -, hw⟩ := h.facts
  rcases hw with hw | hw | hw
  · obtain ⟨w, hw⟩ := List.length_eq_one_iff.1 hw
    have hj : Text.join [' '] ([w].map String.toList) = w.toList := by simp [Text.join]
    rw [name, nameLexemes, hw, hj]
    cases rest with
    | nil => rfl
    | cons l rest =>
      obtain ⟨g, t, k⟩ := l
      have hk := hr _ rfl
      cases k with
      | word v =>
        simp only [Token.isOneOf, Text.oneOf, List.any_cons, List.any_nil, Bool.or_false,
          Bool.or_eq_false_iff] at hk
        simp only [List.map_cons, List.map_nil, List.cons_append, List.nil_append, keyword,
          Fragment.typeName?, hk, Bool.and_false, Bool.or_self, Bool.false_eq_true, if_false]
        rfl
      | _ => rfl
  · rw [name, nameLexemes, hw]
    rfl
  · rw [name, nameLexemes, hw]
    rfl

end

end TypePhrase

end TableDialects
