import TableDialects.Column.Value
import TableDialects.DefaultValue.Cast
import TableDialects.Dialect.Attribute
import TableDialects.Proofs.ColumnType.Phrase
import TableDialects.Proofs.Text.Doubled

/-!
# Default phrases

Truth values, calls of the clock and literals are in normal form. A dialect writes each of them as
it is, cuts its event clause off or leaves it out, and what it writes is read back.
-/
namespace TableDialects

open Lexeme

namespace Clause

/-- The words that the clauses of a definition begin with. -/
def firstWords : List String := ["UNSIGNED", "NOT", "NULL", "AUTO_INCREMENT", "DEFAULT", "COMMENT"]

/-- A clause begins here, or nothing does. -/
def Begins (ls : List Lexeme) : Prop := ∀ l ∈ ls.head?, ∃ w ∈ firstWords, l = keyword w

end Clause

/-- A default value in normal form. -/
inductive DefaultPhrase where
  | truth (value : Bool)
  | now
  | clock
  /-- The time of the last update. -/
  | updated
  | literal (value : Text)
  deriving DecidableEq

namespace DefaultPhrase

def text : DefaultPhrase → Text
  | truth true => "TRUE"
  | truth false => "FALSE"
  | now => "NOW()"
  | clock => "CURRENT_TIMESTAMP"
  | updated => "CURRENT_TIMESTAMP ON UPDATE CURRENT_TIMESTAMP"
  | literal value => quoteLiteral value

def lexemes : DefaultPhrase → List Lexeme
  | truth true => [keyword "TRUE"]
  | truth false => [keyword "FALSE"]
  | now => keyword "NOW" :: group [] [] []
  | clock => [keyword "CURRENT_TIMESTAMP"]
  | updated => [keyword "CURRENT_TIMESTAMP", keyword "ON", keyword "UPDATE",
      keyword "CURRENT_TIMESTAMP"]
  | literal value => [⟨[' '], quoteLiteral value, .quoted '\'' value⟩]

/-- A literal is plain and does not mention the next value of a sequence. -/
def Plain : DefaultPhrase → Prop
  | literal value =>
    Text.Plain value ∧ Text.holds "nextval" (Text.lower value) = false
  | _ => True

theorem text_literal (value : Text) : (literal value).text = quoteLiteral value := rfl

theorem lexemes_literal (value : Text) :
    (literal value).lexemes = [⟨[' '], quoteLiteral value, .quoted '\'' value⟩] := rfl

theorem source_lexemes (v : DefaultPhrase) : source v.lexemes = ' ' :: v.text := by
  cases v with
  | truth value => cases value <;> decide
  | literal value =>
    rw [lexemes_literal, text_literal]
    simp
  | _ => decide

theorem sourceFromToken_lexemes (v : DefaultPhrase) : sourceFromToken v.lexemes = v.text := by
  cases v with
  | truth value => cases value <;> decide
  | literal value =>
    rw [lexemes_literal, text_literal]
    simp [sourceFromToken]
  | _ => decide

theorem apart_literal {value : Text} (h : '\\' ∉ value) : Apart (literal value).lexemes :=
  apart_singleton (by simp [isSeparator]) (by simp)
    (startsToken_cons (by decide) (by decide) (by decide) _) (written_quoteLiteral h (by simp))

theorem apart_lexemes {v : DefaultPhrase} (h : v.Plain) : Apart v.lexemes := by
  cases v with
  | truth value => cases value <;> exact apart_keyword (by decide)
  | now =>
    exact (apart_keyword (by decide)).append
      (apart_group (by simp) (by simp) (by simp))
  | clock => exact apart_keyword (by decide)
  | updated =>
    exact @apart_keywords ["CURRENT_TIMESTAMP", "ON", "UPDATE", "CURRENT_TIMESTAMP"]
      (by decide)
  | literal value => exact apart_literal h.1.no_backslash

theorem enclosed_lexemes (v : DefaultPhrase) : Token.Enclosed (v.lexemes.map (·.token)) := by
  cases v with
  | truth value => cases value <;> rfl
  | _ => rfl

theorem not_mem_text {v : DefaultPhrase} (h : v.Plain) : '\r' ∉ v.text := by
  cases v with
  | truth value => cases value <;> decide
  | literal value => exact Text.not_mem_enclosed (by decide) h.1.no_return
  | _ => decide

section
variable {rest : List Lexeme} {w : Text}

/-- A word is a value by itself when a gap follows it. -/
theorem valueLength?_keyword (hg : ∀ l ∈ rest.head?, l.gap ≠ [])
    (hw : Text.oneOf DefaultValue.clauseKeywords w = false) :
    DefaultValue.valueLength? (keyword w :: rest) = some 1 := by
  have hl : DefaultValue.wordLength (keyword w :: rest) = 1 := by
    cases rest with
    | nil => rfl
    | cons l rest => simp [DefaultValue.wordLength, hg l rfl]
  rw [keyword] at hl ⊢
  simp only [DefaultValue.valueLength?, hw, hl]
  rfl

/-- A call takes its arguments with it. -/
theorem valueLength?_call {es : List (List Lexeme)} {g' : Text}
    (he : ∀ e ∈ es, Token.Enclosed (e.map (·.token)))
    (hw : Text.oneOf DefaultValue.clauseKeywords w = false) :
    DefaultValue.valueLength? (keyword w :: (group [] es g' ++ rest)) =
      some (1 + (group [] es g').length) := by
  have hl : DefaultValue.wordLength (keyword w :: (group [] es g' ++ rest)) =
      1 + groupLength (group [] es g' ++ rest) := rfl
  rw [groupLength_group he] at hl
  rw [keyword] at hl ⊢
  simp only [DefaultValue.valueLength?, hw, hl]
  rfl

variable (h : Clause.Begins rest)
include h

private theorem gap_ne_nil_of_begins : ∀ l ∈ rest.head?, l.gap ≠ [] := by
  intro l hl
  obtain ⟨v, -, rfl⟩ := h l hl
  simp [keyword]

theorem suffixesLength_of_begins : DefaultValue.suffixesLength rest = 0 := by
  have hw : ∀ w ∈ Clause.firstWords, (Token.word w).isWord "ON" = false := by decide
  have hs : DefaultValue.suffixLength? rest = none := by
    cases rest with
    | nil => rfl
    | cons l rest =>
      obtain ⟨w, hm, rfl⟩ := h l rfl
      simp [DefaultValue.suffixLength?, keyword, hw w hm]
  rw [DefaultValue.suffixesLength, hs]

private theorem expressionLength?_keyword (hw : Text.oneOf DefaultValue.clauseKeywords w = false) :
    DefaultValue.expressionLength? (keyword w :: rest) = some 1 := by
  rw [DefaultValue.expressionLength?, valueLength?_keyword (gap_ne_nil_of_begins h) hw,
    Option.map_some, List.drop_one, List.tail_cons, suffixesLength_of_begins h]

/-- An update clause is part of the expression before it. -/
theorem suffixesLength_update (hw : Text.oneOf DefaultValue.clauseKeywords w = false) :
    DefaultValue.suffixesLength (keyword "ON" :: keyword "UPDATE" :: keyword w :: rest) = 3 := by
  have hv := valueLength?_keyword (gap_ne_nil_of_begins h) hw
  have hon : (keyword "ON").token.isWord "ON" = true := by decide
  have hup : (keyword "UPDATE").token.isOneOf ["UPDATE", "INSERT"] = true := by decide
  have hs : DefaultValue.suffixLength? (keyword "ON" :: keyword "UPDATE" :: keyword w :: rest) =
      some 3 := by
    rw [DefaultValue.suffixLength?, if_neg (by simp [keyword])]
    simp only [hon, hup, hv, List.head?_cons, Option.any_some, Bool.and_self, if_true,
      List.drop_one, List.tail_cons, Option.map_some]
  rw [DefaultValue.suffixesLength, hs]
  simp [suffixesLength_of_begins h]

/-- The default expression ends where a clause begins. -/
theorem expressionLength?_lexemes (v : DefaultPhrase) :
    DefaultValue.expressionLength? (v.lexemes ++ rest) = some v.lexemes.length := by
  cases v with
  | truth value => cases value <;> exact expressionLength?_keyword h (by decide)
  | now =>
    have hv : DefaultValue.valueLength? (now.lexemes ++ rest) = some 3 :=
      @valueLength?_call rest _ [] [] (by simp) (by decide)
    have hd : (now.lexemes ++ rest).drop 3 = rest := rfl
    rw [DefaultValue.expressionLength?, hv, Option.map_some, hd, suffixesLength_of_begins h]
    rfl
  | clock => exact expressionLength?_keyword h (by decide)
  | updated =>
    have hv : DefaultValue.valueLength? (updated.lexemes ++ rest) = some 1 :=
      valueLength?_keyword (by simp [keyword]) (by decide)
    have hd : (updated.lexemes ++ rest).drop 1 =
      keyword "ON" :: keyword "UPDATE" :: keyword "CURRENT_TIMESTAMP" :: rest := rfl
    rw [DefaultValue.expressionLength?, hv, Option.map_some, hd,
      suffixesLength_update h (by decide)]
    rfl
  | literal value =>
    have := suffixesLength_of_begins h
    simp [lexemes_literal, DefaultValue.expressionLength?, DefaultValue.valueLength?, this]

end

private theorem trim_quoteLiteral (v : Text) : Text.trim (quoteLiteral v) = quoteLiteral v :=
  (Text.solid_quoteLiteral v).trim

private theorem literal?_quoteLiteral {v : Text} (hv : '\\' ∉ v) :
    DefaultValue.literal? (quoteLiteral v) = some v := by
  have hc : Clear [⟨[], quoteLiteral v, .quoted '\'' v⟩] [] :=
    ⟨⟨by simp, startsToken_cons (by decide) (by decide) (by decide) _,
      written_quoteLiteral hv (by simp)⟩, trivial⟩
  have hl := lex_source hc (by simp)
  simp only [source_cons, source_nil, List.append_nil, List.nil_append] at hl
  rw [DefaultValue.literal?, hl]

section
variable {c d : Char} (t : Text)

theorem isNumeral_cons (hc : Text.isNumeralDigit c = false) (hs : c ≠ '+' ∧ c ≠ '-') :
    DefaultValue.isNumeral (c :: t) = false := by
  simp [DefaultValue.isNumeral, hs, hc]

private theorem afterFolded?_cons {head : Text} (hd : (Text.fold head).head? = some d)
    (hc : Text.foldChar c ≠ d) : Text.afterFolded? head (c :: t) = none := by
  cases head with
  | nil => simp [Text.fold] at hd
  | cons e head =>
    have he : Text.foldChar e = d := by simpa [Text.fold] using hd
    simp [Text.afterFolded?, Text.fold, he, hc]

theorem same_cons {head : Text} (hd : (Text.lowerAscii head).head? = some d)
    (hc : c.toLower ≠ d) : Text.same (c :: t) head = false := by
  cases head with
  | nil => simp [Text.lowerAscii] at hd
  | cons e head =>
    have he : e.toLower = d := by simpa [Text.lowerAscii] using hd
    simp [Text.same, Text.lowerAscii, he, hc]

theorem isClock_cons (hc : Text.foldChar c ≠ 'c') (hn : Text.foldChar c ≠ 'n') :
    DefaultValue.isClock (c :: t) = false := by
  have h₁ := @afterFolded?_cons c 'c' t "CURRENT_TIMESTAMP" (by decide) hc
  have h₂ := @afterFolded?_cons c 'n' t "NOW()" (by decide) hn
  rw [DefaultValue.isClock, DefaultValue.afterClock?, h₁, h₂]
  rfl

theorem oneOf_truth_cons (ht : c.toLower ≠ 't') (hf : c.toLower ≠ 'f') :
    Text.oneOf ["true", "false"] (c :: t) = false := by
  have h₁ := @same_cons c 't' t "true" (by decide) ht
  have h₂ := @same_cons c 'f' t "false" (by decide) hf
  simp only [Text.oneOf, List.any_cons, List.any_nil, h₁, h₂, Bool.or_false]

end

theorem isClock_quote (t : Text) : DefaultValue.isClock ('\'' :: t) = false :=
  isClock_cons t (by decide) (by decide)

private theorem oneOf_quote (t : Text) : Text.oneOf ["true", "false"] ('\'' :: t) = false :=
  oneOf_truth_cons t (by decide) (by decide)

/-- What begins with a quote is one literal, or only its blanks change. -/
theorem normalize_quote {t : Text} (h : t.head? = some '\'') : DefaultValue.normalize t =
    some (((DefaultValue.literal? (Text.trim t)).map quoteLiteral).getD (Text.collapsed t)) := by
  obtain ⟨t, rfl⟩ := List.head?_eq_some_iff.1 h
  obtain ⟨u, hu⟩ := @Text.collapsed_cons '\'' (by decide) t
  have hi : DefaultValue.introduced? (Text.trim ('\'' :: t)) = none := by
    rw [Text.trim, Text.trimStart_cons (by decide), Text.trimEnd_cons (by decide)]
    rfl
  have hn := isNumeral_cons u (show Text.isNumeralDigit '\'' = false by decide) (by decide)
  rw [DefaultValue.normalize, hi, Option.getD_none, DefaultValue.normalizePlain, hu]
  simp only [hn, isClock_quote, oneOf_quote]
  cases DefaultValue.literal? (Text.trim ('\'' :: t)) <;> rfl

theorem normalize_quoteLiteral {v : Text} (hv : '\\' ∉ v) :
    DefaultValue.normalize (quoteLiteral v) = some (quoteLiteral v) := by
  rw [normalize_quote rfl, trim_quoteLiteral, literal?_quoteLiteral hv]
  rfl

/-- A default phrase is in normal form. -/
theorem normalize_text {v : DefaultPhrase} (h : v.Plain) :
    DefaultValue.normalize v.text = some v.text := by
  cases v with
  | truth value => cases value <;> decide
  | literal value => exact normalize_quoteLiteral h.1.no_backslash
  | _ => decide

/-- Inside a literal no pair of colons is a cast. -/
theorem lastCast?_doubled (v r : Text) :
    DefaultValue.lastCast? true (Text.doubled '\'' v ++ '\'' :: r) =
      (DefaultValue.lastCast? false r).map
        fun p => (Text.doubled '\'' v ++ '\'' :: p.1, p.2) := by
  -- two colons are read at once, so the induction is on the length
  induction hn : v.length using Nat.strongRecOn generalizing v with
  | ind n ih =>
    subst hn
    cases v with
    | nil => rfl
    | cons c v =>
      have hv := ih v.length (by simp) v rfl
      by_cases hq : c = '\''
      · subst hq
        simp [Text.doubled_cons, DefaultValue.lastCast?, hv, Function.comp_def]
      · rw [Text.doubled_cons, if_neg hq, List.singleton_append, List.cons_append]
        by_cases hc : c = ':' ∧ v.head? = some ':'
        · obtain ⟨rfl, hh⟩ := hc
          obtain ⟨v, rfl⟩ := List.head?_eq_some_iff.1 hh
          have hlength : v.length < (':' :: ':' :: v).length := by
            simp only [List.length_cons]
            omega
          have hu := ih v.length hlength v rfl
          simp [Text.doubled_cons, DefaultValue.lastCast?, hu, Function.comp_def]
        · rw [DefaultValue.lastCast?.eq_4, hv, Option.map_map]
          · rfl
          · exact hq
          · exact fun cs hcolon he => hc ⟨hcolon, Text.head?_of_doubled (by decide) he⟩

theorem lastCast?_quoteLiteral_append (v r : Text) :
    DefaultValue.lastCast? false (quoteLiteral v ++ r) =
      (DefaultValue.lastCast? false r).map fun p => (quoteLiteral v ++ p.1, p.2) := by
  have h := lastCast?_doubled v r
  rw [quoteLiteral, Text.enclosed, List.cons_append, List.append_assoc, List.singleton_append,
    DefaultValue.lastCast?, Bool.not_false, h, Option.map_map]
  simp [Function.comp_def]

theorem withoutCasts_quoteLiteral (v : Text) :
    DefaultValue.withoutCasts (quoteLiteral v) = quoteLiteral v := by
  have hc : DefaultValue.lastCast? false (quoteLiteral v) = none := by
    have h := lastCast?_quoteLiteral_append v []
    rwa [List.append_nil] at h
  rw [DefaultValue.withoutCasts]
  split
  · rfl
  · next he => exact absurd he (by simp [hc])

theorem stripCasts_text (v : DefaultPhrase) : DefaultValue.stripCasts v.text = v.text := by
  cases v with
  | truth value => cases value <;> decide +kernel
  | literal value =>
    rw [text_literal, DefaultValue.stripCasts, trim_quoteLiteral, withoutCasts_quoteLiteral]
  | _ => decide +kernel

theorem holds_nextval_quoteLiteral (v : Text) :
    Text.holds "nextval" (Text.lower (quoteLiteral v)) = Text.holds "nextval" (Text.lower v) := by
  have hl : Text.lower (quoteLiteral v) = '\'' :: (Text.doubled '\'' (Text.lower v) ++ ['\'']) := by
    rw [← Text.lower_doubled, quoteLiteral, Text.enclosed, Text.lower_cons, Text.lower_append]
    rfl
  have hp : ("nextval".toList).isPrefixOf
      ('\'' :: (Text.doubled '\'' (Text.lower v) ++ ['\''])) = false :=
    Text.isPrefixOf_quote (by decide) (by decide) _
  rw [hl, Text.holds_cons, hp, Bool.false_or]
  exact Text.holds_doubled (by decide) (by decide)

theorem holds_nextval {v : DefaultPhrase} (h : v.Plain) :
    Text.holds "nextval" (Text.lower v.text) = false := by
  cases v with
  | truth value => cases value <;> decide
  | literal value => exact (holds_nextval_quoteLiteral value).trans h.2
  | _ => decide

/-- The default that a dialect writes in place of another, if it can express it. -/
def stored? (d : Dialect) (v : DefaultPhrase) : Option DefaultPhrase :=
  match d.family, v with
  | .sqlite, now | .sqlite, updated => none
  | .postgres, updated => some clock
  | _, v => some v

private theorem bitLiteral?_quote (t : Text) : Dialect.bitLiteral? ('\'' :: t) = none := by
  cases t with
  | nil => rfl
  | cons c t => by_cases hc : c = '\'' <;> simp [Dialect.bitLiteral?, hc]

/-- What begins with a quote is left as it is. -/
theorem sqliteDefault_quote (t : Text) : Dialect.sqliteDefault ('\'' :: t) = some ('\'' :: t) := by
  have hs : DefaultValue.splitEvent ('\'' :: t) = ('\'' :: t, none) := rfl
  have hu : Text.upperAscii ('\'' :: t) = '\'' :: Text.upperAscii t := rfl
  have h₁ := @Text.isPrefixOf_quote '\'' "NOW(" (by decide) (by decide)
  have h₂ := @Text.isPrefixOf_quote '\'' "CURRENT_TIMESTAMP(" (by decide)
    (by decide)
  rw [Dialect.sqliteDefault, hs, hu, bitLiteral?_quote]
  simp only [h₁, h₂]
  rfl

theorem defaultValue?_text (d : Dialect) (v : DefaultPhrase) :
    d.defaultValue? v.text = (v.stored? d).map text := by
  cases v with
  | literal value =>
    cases d with
    | sqlite => exact sqliteDefault_quote _
    | _ => rfl
  | truth value => cases value <;> cases d <;> decide
  | _ => cases d <;> decide

/-- The phrase that a text is, if it is in normal form. -/
def ofText? (t : Text) : Option DefaultPhrase :=
  ([truth true, truth false, now, clock, updated].find? (·.text == t)).or
    ((DefaultValue.literal? t).map literal)

theorem ofText?_text {v : DefaultPhrase} (h : v.Plain) : ofText? v.text = some v := by
  cases v with
  | truth value => cases value <;> decide
  | literal value =>
    have hne : ∀ p ∈ [truth true, truth false, now, clock, updated],
      p.text.head? ≠ some '\'' := by decide
    have hf : [truth true, truth false, now, clock, updated].find?
        (·.text == quoteLiteral value) = none := by
      refine List.find?_eq_none.2 fun p hp he => hne p hp ?_
      rw [eq_of_beq he]
      rfl
    rw [text_literal, ofText?, hf, literal?_quoteLiteral h.1.no_backslash]
    rfl
  | _ => decide

end DefaultPhrase

end TableDialects
