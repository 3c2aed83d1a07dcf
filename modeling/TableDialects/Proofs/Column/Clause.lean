import TableDialects.Column.Draft
import TableDialects.Proofs.DefaultValue.Phrase

/-!
# Clause phrases

The clauses of a column are read back one after the other, each of them up to where the next one
begins.
-/
namespace TableDialects

open Lexeme

/-- The words that a clause begins with, unless the clause is one word that says nothing. -/
def Clause.leadingWords : List String :=
  ["NOT", "PRIMARY", "KEY", "UNIQUE", "AUTO_INCREMENT", "AUTOINCREMENT", "IDENTITY", "GENERATED",
    "DEFAULT", "COMMENT", "UNSIGNED", "COLLATE", "CHARSET", "CHARACTER", "ON", "CONSTRAINT"]

/-- A clause of a definition. -/
inductive ClausePhrase where
  | unsigned
  | null
  | notNull
  | primaryKey
  | autoIncrement
  | defaultValue (value : DefaultPhrase)
  | comment (text : Text)

namespace ClausePhrase

def lexemes : ClausePhrase → List Lexeme
  | unsigned => [keyword "UNSIGNED"]
  | null => [keyword "NULL"]
  | notNull => [keyword "NOT", keyword "NULL"]
  | primaryKey => [keyword "NOT", keyword "NULL", keyword "PRIMARY", keyword "KEY"]
  | autoIncrement => [keyword "AUTO_INCREMENT"]
  | defaultValue value => keyword "DEFAULT" :: value.lexemes
  | comment text => [keyword "COMMENT", ⟨[' '], quoteLiteral text, .quoted '\'' text⟩]

/-- What a clause is written as, with a space in front. -/
def text : ClausePhrase → Text
  | unsigned => " UNSIGNED"
  | null => " NULL"
  | notNull => " NOT NULL"
  | primaryKey => " NOT NULL PRIMARY KEY"
  | autoIncrement => ' ' :: "AUTO_INCREMENT".toList
  | defaultValue value => ' ' :: ("DEFAULT ".toList ++ value.text)
  | comment text => ' ' :: ("COMMENT ".toList ++ quoteLiteral text)

/-- What a clause is read as. A primary key is two clauses. -/
def clauses : ClausePhrase → List Clause
  | unsigned => [.unsigned]
  | null => [.other]
  | notNull => [.notNull]
  | primaryKey => [.notNull, .primaryKey]
  | autoIncrement => [.autoIncrement]
  | defaultValue value => [.defaultValue value.text]
  | comment text => [.comment text]

def Plain : ClausePhrase → Prop
  | defaultValue value => value.Plain
  | comment text => Text.Plain text
  | _ => True

private theorem lexemes_defaultValue (value : DefaultPhrase) :
    (defaultValue value).lexemes = keyword "DEFAULT" :: value.lexemes := rfl

private theorem text_defaultValue (value : DefaultPhrase) :
    (defaultValue value).text = ' ' :: ("DEFAULT ".toList ++ value.text) := rfl

private theorem text_comment (text : Text) :
    (comment text).text = ' ' :: ("COMMENT ".toList ++ quoteLiteral text) := rfl

private theorem lexemes_comment (text : Text) : (comment text).lexemes =
    [keyword "COMMENT", ⟨[' '], quoteLiteral text, .quoted '\'' text⟩] := rfl

theorem source_lexemes (p : ClausePhrase) : source p.lexemes = p.text := by
  cases p with
  | defaultValue value =>
    have hw : "DEFAULT ".toList = "DEFAULT".toList ++ [' '] := by decide
    rw [lexemes_defaultValue, source_cons, value.source_lexemes, text_defaultValue, hw,
      keyword]
    simp
  | comment text =>
    have hw : "COMMENT ".toList = "COMMENT".toList ++ [' '] := by decide
    rw [lexemes_comment, source_cons, source_cons, text_comment, hw, keyword]
    simp
  | _ => decide

theorem apart_lexemes {p : ClausePhrase} (h : p.Plain) : Apart p.lexemes := by
  cases p with
  | unsigned => exact apart_keyword (by decide)
  | null => exact apart_keyword (by decide)
  | notNull => exact @apart_keywords ["NOT", "NULL"] (by decide)
  | primaryKey => exact @apart_keywords ["NOT", "NULL", "PRIMARY", "KEY"] (by decide)
  | autoIncrement => exact apart_keyword (by decide)
  | defaultValue value =>
    exact (apart_keyword (by decide)).append (DefaultPhrase.apart_lexemes h)
  | comment text =>
    exact (apart_keyword (by decide)).append (DefaultPhrase.apart_literal h.no_backslash)

theorem enclosed_lexemes (p : ClausePhrase) : Token.Enclosed (p.lexemes.map (·.token)) := by
  cases p with
  | defaultValue value =>
    exact (enclosed_keywords ["DEFAULT"]).append value.enclosed_lexemes
  | _ => rfl

private theorem begins_lexemes (p : ClausePhrase) (rest : List Lexeme) :
    Clause.Begins (p.lexemes ++ rest) := by
  intro l hl
  have hw : ∀ w ∈ ["UNSIGNED", "NULL", "NOT", "AUTO_INCREMENT", "DEFAULT", "COMMENT"],
      w ∈ Clause.firstWords := by decide
  cases p <;> obtain rfl := Option.some.inj hl
  all_goals exact ⟨_, hw _ (by simp), rfl⟩

theorem begins_flatMap (ps : List ClausePhrase) :
    Clause.Begins (ps.flatMap lexemes) := by
  cases ps with
  | nil => exact fun l hl => absurd hl (by simp)
  | cons p ps => exact p.begins_lexemes (ps.flatMap lexemes)

theorem not_mem_text {p : ClausePhrase} (h : p.Plain) : '\r' ∉ p.text := by
  cases p with
  | defaultValue value =>
    have hw : '\r' ∉ "DEFAULT ".toList := by decide
    have hv := DefaultPhrase.not_mem_text h
    rw [text_defaultValue]
    simp only [List.mem_cons, List.mem_append, not_or]
    exact ⟨by decide, hw, hv⟩
  | comment text =>
    have hw : '\r' ∉ "COMMENT ".toList := by decide
    have hv : '\r' ∉ quoteLiteral text := Text.not_mem_enclosed (by decide) h.no_return
    rw [text_comment]
    simp only [List.mem_cons, List.mem_append, not_or]
    exact ⟨by decide, hw, hv⟩
  | _ => decide

section
variable {rest : List Lexeme}

private theorem leadingGroup_of_begins (h : Clause.Begins rest) : leadingGroup rest = 0 := by
  cases rest with
  | nil => rfl
  | cons l rest =>
    obtain ⟨w, -, rfl⟩ := h l rfl
    rfl

theorem readAll_cons {first : Lexeme} {c : Clause} {n : Nat}
    (h : Clause.read first rest = (c, n)) :
    Clause.readAll (first :: rest) = c :: Clause.readAll (rest.drop n) := by
  rw [Clause.readAll, h]

theorem read_not : Clause.read (keyword "NOT") (keyword "NULL" :: rest) = (.notNull, 1) := by
  have hw : (keyword "NOT").token.isWord "NOT" = true := by decide
  have hn : nextIs "NULL" (keyword "NULL" :: rest) = true :=
    show (keyword "NULL").token.isWord "NULL" = true by decide
  simp only [Clause.read, hw, hn]
  rfl

private theorem read_primary :
    Clause.read (keyword "PRIMARY") (keyword "KEY" :: rest) = (.primaryKey, 1) := by
  have hw : (keyword "PRIMARY").token.isWord "NOT" = false ∧
    (keyword "PRIMARY").token.isWord "PRIMARY" = true := by decide
  have hn : nextIs "KEY" (keyword "KEY" :: rest) = true :=
    show (keyword "KEY").token.isWord "KEY" = true by decide
  simp only [Clause.read, hw, hn]
  rfl

/-- No word of a key or a negation begins these clauses. -/
theorem isWord_firstWords : ∀ w ∈ ["UNSIGNED", "NULL", "AUTO_INCREMENT", "DEFAULT", "COMMENT"],
    (keyword w).token.isWord "NOT" = false ∧ (keyword w).token.isWord "PRIMARY" = false ∧
    (keyword w).token.isWord "KEY" = false ∧ (keyword w).token.isWord "UNIQUE" = false := by
  decide

private theorem read_autoIncrement (h : Clause.Begins rest) :
    Clause.read (keyword "AUTO_INCREMENT") rest = (.autoIncrement, 0) := by
  have hw := isWord_firstWords "AUTO_INCREMENT" (by simp)
  have hc : (keyword "AUTO_INCREMENT").token.isOneOf
    ["AUTO_INCREMENT", "AUTOINCREMENT", "IDENTITY"] = true := by decide
  simp only [Clause.read, hw, hc, leadingGroup_of_begins h]
  rfl

/-- The words that are left do not make a column count up by itself. -/
theorem isOneOf_firstWords : ∀ w ∈ ["UNSIGNED", "NULL", "DEFAULT", "COMMENT"],
    (keyword w).token.isOneOf ["AUTO_INCREMENT", "AUTOINCREMENT", "IDENTITY"] = false ∧
    (keyword w).token.isWord "GENERATED" = false := by
  decide

private theorem read_default (h : Clause.Begins rest) (value : DefaultPhrase) :
    Clause.read (keyword "DEFAULT") (value.lexemes ++ rest) =
      (.defaultValue value.text, value.lexemes.length) := by
  have hw := isWord_firstWords "DEFAULT" (by simp)
  have hc := isOneOf_firstWords "DEFAULT" (by simp)
  have hd : (keyword "DEFAULT").token.isWord "DEFAULT" = true := by decide
  simp only [Clause.read, hw, hc, hd, DefaultPhrase.expressionLength?_lexemes h value,
    List.take_left, DefaultPhrase.sourceFromToken_lexemes]
  rfl

private theorem read_comment (text : Text) :
    Clause.read (keyword "COMMENT") (⟨[' '], quoteLiteral text, .quoted '\'' text⟩ :: rest) =
      (.comment text, 1) := by
  have hw := isWord_firstWords "COMMENT" (by simp)
  have hc := isOneOf_firstWords "COMMENT" (by simp)
  have hd : (keyword "COMMENT").token.isWord "DEFAULT" = false ∧
    (keyword "COMMENT").token.isWord "COMMENT" = true := by decide
  simp only [Clause.read, hw, hc, hd]
  rfl

theorem read_unsigned : Clause.read (keyword "UNSIGNED") rest = (.unsigned, 0) := by
  have hw := isWord_firstWords "UNSIGNED" (by simp)
  have hc := isOneOf_firstWords "UNSIGNED" (by simp)
  have hd : (keyword "UNSIGNED").token.isWord "DEFAULT" = false ∧
    (keyword "UNSIGNED").token.isWord "COMMENT" = false ∧
    (keyword "UNSIGNED").token.isWord "UNSIGNED" = true := by decide
  simp only [Clause.read, hw, hc, hd]
  rfl

/-- What leads no clause is skipped. -/
theorem read_other {first : Lexeme} (hw : first.token.isOneOf Clause.leadingWords = false)
    (hp : first.token ≠ .openParen) (rest : List Lexeme) : Clause.read first rest = (.other, 0) := by
  simp only [Clause.leadingWords, Token.isOneOf_eq_any, List.any_cons, List.any_nil, Bool.or_false,
    Bool.or_eq_false_iff] at hw
  simp only [Clause.read, Token.isOneOf_eq_any, List.any_cons, List.any_nil, hw, Bool.or_false,
    Bool.false_and, Bool.false_eq_true, if_false, if_neg hp]

/-- `NULL` begins no clause that bears on a column. -/
theorem read_null : Clause.read (keyword "NULL") rest = (.other, 0) :=
  read_other (by decide) (by simp [keyword]) rest

/-- A clause is read up to where the next one begins. -/
theorem readAll_lexemes (p : ClausePhrase) (h : Clause.Begins rest) :
    Clause.readAll (p.lexemes ++ rest) = p.clauses ++ Clause.readAll rest := by
  cases p with
  | unsigned => exact readAll_cons read_unsigned
  | null => exact readAll_cons read_null
  | notNull => exact readAll_cons read_not
  | primaryKey =>
    refine (readAll_cons read_not).trans ?_
    exact congrArg _ (readAll_cons read_primary)
  | autoIncrement => exact readAll_cons (read_autoIncrement h)
  | defaultValue value =>
    refine (readAll_cons (read_default h value)).trans ?_
    rw [List.drop_left]
    rfl
  | comment text => exact readAll_cons (read_comment text)

theorem readAll_flatMap (ps : List ClausePhrase) :
    Clause.readAll (ps.flatMap lexemes) = ps.flatMap clauses := by
  induction ps with
  | nil => rw [List.flatMap_nil, Clause.readAll]; rfl
  | cons p ps ih =>
    rw [List.flatMap_cons, List.flatMap_cons, p.readAll_lexemes (begins_flatMap ps), ih]

end

end ClausePhrase

namespace Clause

/-- Each clause is read at some place, with all that follows it. -/
theorem mem_readAll {c : Clause} {ls : List Lexeme} (h : c ∈ readAll ls) :
    ∃ first rest, first :: rest <:+ ls ∧ (read first rest).1 = c := by
  induction ls using readAll.induct with
  | case1 => simp [readAll] at h
  | case2 first rest ih =>
    rw [readAll, List.mem_cons] at h
    rcases h with rfl | h
    · exact ⟨first, rest, List.suffix_rfl, rfl⟩
    · obtain ⟨l, ls, hsuffix, hread⟩ := ih h
      exact ⟨l, ls, hsuffix.trans ((List.drop_suffix _ rest).trans (List.suffix_cons first rest)),
        hread⟩

section
variable {first : Lexeme} {rest : List Lexeme}

private theorem ofGenerated_eq (rest : List Lexeme) :
    (ofGenerated rest).1 = .autoIncrement ∨ (ofGenerated rest).1 = .other := by
  unfold ofGenerated
  dsimp only
  split
  · exact .inl rfl
  · exact .inr rfl

private theorem ofUpdate_ne (raw : Text) : ofUpdate raw ≠ .missingDefault := by
  unfold ofUpdate
  split <;> simp

/-- Only the word `DEFAULT` can miss a value. -/
theorem isWord_of_missingDefault (h : (read first rest).1 = .missingDefault) :
    first.token.isWord "DEFAULT" = true := by
  revert h
  fun_cases read first rest with
  | case6 =>
    intro h
    rcases ofGenerated_eq rest with hg | hg
    all_goals
      rw [hg] at h
      cases h
  | case8 _ _ _ _ _ _ _ _ hdefault => exact fun _ => hdefault
  | case14 => exact fun h => absurd h (ofUpdate_ne _)
  | _ => exact fun h => Clause.noConfusion h

/-- Only the words `ON UPDATE` begin an update clause. -/
theorem isWord_of_onUpdate {e : Text} (h : (read first rest).1 = .onUpdate e) :
    (first.token.isWord "ON" && nextIs "UPDATE" rest) = true := by
  revert h
  fun_cases read first rest with
  | case6 =>
    intro h
    rcases ofGenerated_eq rest with hg | hg
    all_goals
      rw [hg] at h
      cases h
  | case14 _ _ _ _ _ _ _ _ _ _ _ _ _ hupdate => exact fun _ => hupdate
  | _ => exact fun h => Clause.noConfusion h

end

end Clause

end TableDialects
