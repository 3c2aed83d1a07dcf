import TableDialects.Proofs.Column.Phrase
import TableDialects.Table.Fragment

/-!
# Default expressions

A value and the event clauses after it are lexemes that stand apart. The column that has them as
its default is read with the normal form of their text.
-/
namespace TableDialects

open Lexeme

/-- A value of a default or of an event clause. -/
inductive ValuePhrase where
  | literal (value : Text)
  | number (digits : Text)
  | word (name : Text)
  | call (name : Text) (arguments : List (List Lexeme))

namespace ValuePhrase

def lexemes : ValuePhrase → List Lexeme
  | literal value => [⟨[' '], quoteLiteral value, .quoted '\'' value⟩]
  | number digits => [⟨[' '], digits, .number digits⟩]
  | word name => [keyword name]
  | call name arguments => keyword name :: group [] arguments []

def text : ValuePhrase → Text
  | literal value => quoteLiteral value
  | number digits => digits
  | word name => name
  | call name arguments => name ++ source (group [] arguments [])

def isLiteral : ValuePhrase → Bool
  | literal _ => true
  | _ => false

/-- A name that begins no clause. -/
def IsName (name : Text) : Prop :=
  IsWord name ∧ Text.oneOf DefaultValue.clauseKeywords name = false

def WellFormed : ValuePhrase → Prop
  | literal value => '\\' ∉ value
  | number digits => digits.head?.any Char.isDigit = true ∧ Token.Numeral [] digits
  | word name => IsName name
  | call name arguments =>
    IsName name ∧ ∀ e ∈ arguments, Clear e [] ∧ Token.Enclosed (e.map (·.token))

variable {v : ValuePhrase} {rest : List Lexeme}

theorem source_lexemes (v : ValuePhrase) : source v.lexemes = ' ' :: v.text := by
  cases v <;> simp [lexemes, text, keyword]

theorem sourceFromToken_lexemes (v : ValuePhrase) (rest : List Lexeme) :
    sourceFromToken (v.lexemes ++ rest) = v.text ++ source rest := by
  cases v <;> simp [lexemes, text, keyword, sourceFromToken]

private theorem apart_number {digits : Text} (h : (number digits).WellFormed) :
    Apart (number digits).lexemes := by
  obtain ⟨hd, hn⟩ := h
  cases digits with
  | nil => simp at hd
  | cons c cs =>
    have hc : c.isDigit = true := by simpa using hd
    have hne : ∀ d : Char, d.isDigit = false → c ≠ d := by
      rintro d hd rfl
      simp [hc] at hd
    have hs : isSeparator c = false := by
      simp only [isSeparator, Bool.or_eq_false_iff, beq_eq_false_iff_ne]
      exact ⟨⟨⟨hne _ (by decide), hne _ (by decide)⟩, hne _ (by decide)⟩, hne _ (by decide)⟩
    exact apart_singleton (by simp [isSeparator]) (by simp)
      (startsToken_cons hs (hne _ (by decide)) (hne _ (by decide)) cs) (.number hc hn)

theorem apart_lexemes (h : v.WellFormed) : Apart v.lexemes := by
  cases v with
  | literal value => exact DefaultPhrase.apart_literal h
  | number digits => exact apart_number h
  | word name => exact apart_keyword h.1
  | call name arguments =>
    exact (apart_keyword h.1.1).append
      (apart_group (by simp) (by simp) fun e he => (h.2 e he).1)

/-- The value ends at a gap. -/
theorem valueLength?_lexemes (h : v.WellFormed) (hg : ∀ l ∈ rest.head?, l.gap ≠ []) :
    DefaultValue.valueLength? (v.lexemes ++ rest) = some v.lexemes.length := by
  cases v with
  | literal value => rfl
  | number digits =>
    have hrun : DefaultValue.runLength (⟨[' '], digits, .number digits⟩ :: rest) = 1 := by
      cases rest with
      | nil => rfl
      | cons l rest =>
        have hl : DefaultValue.continuesRun l = false := by
          simp [DefaultValue.continuesRun, hg l rfl]
        simp [DefaultValue.runLength, hl]
    simp [lexemes, DefaultValue.valueLength?, DefaultValue.temporalLength, hrun]
  | word name => exact DefaultPhrase.valueLength?_keyword hg h.2
  | call name arguments =>
    rw [lexemes, List.cons_append, DefaultPhrase.valueLength?_call (fun e he => (h.2 e he).2) h.1.2,
      List.length_cons, Nat.add_comm]

end ValuePhrase

/-- The event that an event clause names. -/
inductive EventKind where
  | update
  | insert
  deriving DecidableEq

namespace EventKind

def keyword : EventKind → String
  | update => "UPDATE"
  | insert => "INSERT"

/-- What a clause of this kind begins with. -/
def mark : EventKind → Text
  | update => " ON UPDATE "
  | insert => " ON INSERT "

end EventKind

/-- An event clause of a default. -/
structure EventPhrase where
  kind : EventKind
  value : ValuePhrase

namespace EventPhrase

variable (p : EventPhrase)

def lexemes : List Lexeme := keyword "ON" :: keyword p.kind.keyword :: p.value.lexemes

def text : Text := p.kind.mark ++ p.value.text

private theorem source_lexemes : source p.lexemes = p.text := by
  have hmark : p.kind.mark =
      ' ' :: ("ON".toList ++ ' ' :: (p.kind.keyword.toList ++ [' '])) := by
    cases p.kind <;> rfl
  rw [lexemes, source_cons, source_cons, ValuePhrase.source_lexemes, text, hmark]
  simp [Lexeme.keyword]

variable {p} {rest : List Lexeme}

private theorem apart_lexemes (h : p.value.WellFormed) : Apart p.lexemes := by
  have hon : Apart [keyword "ON"] := apart_keyword (by decide)
  have hkind : Apart [keyword p.kind.keyword] := by
    cases p.kind <;> exact apart_keyword (by decide)
  exact hon.append (hkind.append (ValuePhrase.apart_lexemes h))

private theorem suffixLength?_lexemes (h : p.value.WellFormed) (hg : ∀ l ∈ rest.head?, l.gap ≠ []) :
    DefaultValue.suffixLength? (p.lexemes ++ rest) = some p.lexemes.length := by
  have hv := ValuePhrase.valueLength?_lexemes h hg
  have hon : (keyword "ON").token.isWord "ON" = true := by decide
  have hkind : (keyword p.kind.keyword).token.isOneOf ["UPDATE", "INSERT"] = true := by
    cases p.kind <;> decide
  rw [lexemes, List.cons_append, List.cons_append, DefaultValue.suffixLength?,
    if_neg (by simp [keyword])]
  simp only [hon, hkind, hv, List.head?_cons, Option.any_some, Bool.and_self, if_true,
    List.drop_one, List.tail_cons, Option.map_some, List.length_cons]

end EventPhrase

private theorem gap_flatMap_events (ps : List EventPhrase) :
    ∀ l ∈ (ps.flatMap EventPhrase.lexemes).head?, l.gap ≠ [] := by
  cases ps with
  | nil => simp
  | cons p ps =>
    intro l hl
    obtain rfl := Option.some.inj hl
    simp [keyword]

/-- All event clauses belong to the expression before them. -/
theorem suffixesLength_events {ps : List EventPhrase} (h : ∀ p ∈ ps, p.value.WellFormed) :
    DefaultValue.suffixesLength (ps.flatMap EventPhrase.lexemes) =
      (ps.flatMap EventPhrase.lexemes).length := by
  induction ps with
  | nil => rw [List.flatMap_nil, DefaultValue.suffixesLength]; rfl
  | cons p ps ih =>
    have hs := EventPhrase.suffixLength?_lexemes (h p List.mem_cons_self) (gap_flatMap_events ps)
    have hrec := ih fun q hq => h q (List.mem_cons_of_mem p hq)
    have hlength : p.lexemes.length = p.value.lexemes.length + 1 + 1 := rfl
    rw [hlength] at hs
    rw [List.flatMap_cons, DefaultValue.suffixesLength, hs]
    simp only [← hlength, List.drop_left, hrec, List.length_append]
    rfl

/-- A value with event clauses after it. -/
structure DefaultExpression where
  head : ValuePhrase
  events : List EventPhrase

namespace DefaultExpression

variable (e : DefaultExpression)

def lexemes : List Lexeme := e.head.lexemes ++ e.events.flatMap EventPhrase.lexemes

def text : Text := e.head.text ++ e.events.flatMap EventPhrase.text

structure WellFormed : Prop where
  head : e.head.WellFormed
  events : ∀ p ∈ e.events, p.value.WellFormed

private theorem source_events (ps : List EventPhrase) :
    source (ps.flatMap EventPhrase.lexemes) = ps.flatMap EventPhrase.text := by
  induction ps with
  | nil => rfl
  | cons p ps ih =>
    rw [List.flatMap_cons, List.flatMap_cons, source_append, p.source_lexemes, ih]

theorem sourceFromToken_lexemes : sourceFromToken e.lexemes = e.text := by
  rw [lexemes, ValuePhrase.sourceFromToken_lexemes, source_events, text]

private theorem source_lexemes : source e.lexemes = ' ' :: e.text := by
  rw [lexemes, source_append, ValuePhrase.source_lexemes, source_events, text, List.cons_append]

variable {e}

private theorem apart_events {ps : List EventPhrase} (h : ∀ p ∈ ps, p.value.WellFormed) :
    Apart (ps.flatMap EventPhrase.lexemes) := by
  induction ps with
  | nil => exact apart_nil
  | cons p ps ih =>
    exact (EventPhrase.apart_lexemes (h p List.mem_cons_self)).append
      (ih fun q hq => h q (List.mem_cons_of_mem p hq))

theorem apart_lexemes (h : e.WellFormed) : Apart e.lexemes :=
  (ValuePhrase.apart_lexemes h.head).append (apart_events h.events)

/-- The default expression takes all lexemes. -/
theorem expressionLength?_lexemes (h : e.WellFormed) :
    DefaultValue.expressionLength? e.lexemes = some e.lexemes.length := by
  have hv := ValuePhrase.valueLength?_lexemes h.head (gap_flatMap_events e.events)
  rw [lexemes, DefaultValue.expressionLength?, hv, Option.map_some, List.drop_left,
    suffixesLength_events h.events, List.length_append]

private theorem readAll_default (h : e.WellFormed) :
    Clause.readAll (keyword "DEFAULT" :: e.lexemes) = [.defaultValue e.text] := by
  have hw := ClausePhrase.isWord_firstWords "DEFAULT" (by simp)
  have hc := ClausePhrase.isOneOf_firstWords "DEFAULT" (by simp)
  have hd : (keyword "DEFAULT").token.isWord "DEFAULT" = true := by decide
  have hread : Clause.read (keyword "DEFAULT") e.lexemes =
      (.defaultValue e.text, e.lexemes.length) := by
    simp only [Clause.read, hw, hc, hd, expressionLength?_lexemes h, List.take_length,
      sourceFromToken_lexemes]
    rfl
  rw [ClausePhrase.readAll_cons hread, List.drop_length, Clause.readAll]

/-- The normal form of the expression is the default of the column. -/
theorem read_default (h : e.WellFormed)
    (hn : Text.holds "nextval" (Text.lower e.text) = false) {name type : Text}
    (he : ColumnType.isEnumeration type = false) (hs : ColumnType.isSerial type = false) :
    Column.read name type (keyword "DEFAULT" :: e.lexemes) =
      { column := { name, typeName := type, defaultValue := DefaultValue.normalize e.text } } := by
  have hbegins : Clause.Begins (keyword "DEFAULT" :: e.lexemes) := by
    intro l hl
    obtain rfl := Option.some.inj hl
    exact ⟨"DEFAULT", by simp [Clause.firstWords], rfl⟩
  have hzone : Column.zoneAfter? type (keyword "DEFAULT" :: e.lexemes) = none := by
    unfold Column.zoneAfter?
    split
    · exact ColumnPhrase.zone?_of_begins hbegins
    · rfl
  have hgroup : leadingGroup (keyword "DEFAULT" :: e.lexemes) = 0 := rfl
  have hdraft : Column.draft name type [] = { column := { name, typeName := type } } := by
    simp only [Column.draft, he, hs, Bool.false_eq_true, if_false]
  simp only [Column.read, hgroup, hzone, List.drop_zero, readAll_default h, if_true,
    Option.isSome_none, Bool.false_eq_true, if_false, Option.getD_none, List.append_nil, hdraft,
    List.foldl_cons, List.foldl_nil, Draft.add, Draft.setDefault, hn, Draft.finish, Option.none_or]

private theorem typeName?_default (type : Text) (ls : List Lexeme) :
    Fragment.typeName? (keyword type :: keyword "DEFAULT" :: ls) =
      some (type, keyword "DEFAULT" :: ls) := by
  have hw : Text.same "DEFAULT" "precision" = false ∧ Text.same "DEFAULT" "varying" = false := by
    decide
  simp only [Fragment.typeName?, keyword, hw, Bool.and_false, Bool.or_false, Bool.false_eq_true,
    if_false, List.drop_one, List.tail_cons]

variable (e) in
/-- A column that has the expression as its default. -/
def definition : Text := "c TIMESTAMP DEFAULT ".toList ++ e.text

variable (e) in
def definitionLexemes : List Lexeme :=
  ⟨[], "c".toList, .word "c"⟩ :: keyword "TIMESTAMP" :: keyword "DEFAULT" :: e.lexemes

private theorem tokenize_definition (h : e.WellFormed) :
    tokenize e.definition = e.definitionLexemes := by
  have hsource : ∀ name type word : Text,
      source (⟨[], name, .word name⟩ :: keyword type :: keyword word :: e.lexemes) =
        (name ++ (' ' :: type) ++ (' ' :: word) ++ [' ']) ++ e.text := by
    intro name type word
    simp [source_lexemes, keyword]
  have hafter : Apart (keyword "TIMESTAMP" :: keyword "DEFAULT" :: e.lexemes) :=
    (@apart_keywords ["TIMESTAMP", "DEFAULT"] (by decide)).append (apart_lexemes h)
  have hname : ClearOf ⟨[], "c".toList, .word "c"⟩ [] :=
    ⟨List.forall_mem_nil _, rfl, IsWord.written (by decide) rfl⟩
  have hclear : Clear e.definitionLexemes [] :=
    ⟨@ClearOf.congr _ [] [] _ hname rfl, hafter.clear⟩
  have hd : e.definition = source e.definitionLexemes := (hsource "c" "TIMESTAMP" "DEFAULT").symm
  rw [hd, tokenize_source hclear]

/-- The column is read with the normal form of the expression as its default. -/
theorem read_definition (h : e.WellFormed)
    (hn : Text.holds "nextval" (Text.lower e.text) = false) :
    Fragment.read (tokenize e.definition) =
      { result := .ok (.column { name := "c", typeName := "TIMESTAMP",
                                 defaultValue := DefaultValue.normalize e.text } false) } := by
  have hnamed : Fragment.isNamedIndex e.definitionLexemes = false := by
    have hw : (Token.word "c").isWord "CONSTRAINT" = false ∧
        (Token.word "c").isOneOf ["KEY", "INDEX", "FULLTEXT", "SPATIAL"] = false := by decide
    simp only [definitionLexemes, Fragment.isNamedIndex, hw, Bool.false_and, Bool.false_eq_true,
      if_false, Bool.and_false]
  have hrecognized : ColumnType.isRecognized "TIMESTAMP" = true := by decide
  have hcolumn := @read_default e h hn "c" "TIMESTAMP" (by decide) (by decide)
  have hname : (Token.word "c").name? = some "c".toList := rfl
  rw [definitionLexemes] at hnamed
  rw [tokenize_definition h, definitionLexemes]
  simp only [Fragment.read, hname, hnamed, Fragment.readNamed, typeName?_default,
    Option.filter_some, hrecognized, if_true, hcolumn]
  rfl

end DefaultExpression

end TableDialects
