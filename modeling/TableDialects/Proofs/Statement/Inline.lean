import TableDialects.Proofs.Column.Phrase
import TableDialects.Proofs.Statement.Scanning

/-!
# Lexemes in a line

Lexemes without a line break between them and without a semicolon pass the splitter, and so does a
line break before a line that is neither blank nor a comment nor a directive.
-/
namespace TableDialects

open Lexeme

/-- No line begins between the lexemes, and no statement ends. -/
def Lexeme.Inline (ls : List Lexeme) : Prop := ∀ l ∈ ls, '\n' ∉ l.gap ∧ l.token ≠ .punct ';'

namespace Lexeme.Inline

variable {as bs : List Lexeme}

private theorem nil : Inline [] := by
  simp [Inline]

theorem append (ha : Inline as) (hb : Inline bs) : Inline (as ++ bs) := by
  intro l hl
  rcases List.mem_append.1 hl with hl | hl
  · exact ha l hl
  · exact hb l hl

theorem singleton {l : Lexeme} (hg : '\n' ∉ l.gap) (hk : l.token ≠ .punct ';') : Inline [l] := by
  intro m hm
  obtain rfl := List.mem_singleton.1 hm
  exact ⟨hg, hk⟩

theorem keywords (ws : List Text) : Inline (ws.map keyword) := by
  intro l hl
  obtain ⟨w, -, rfl⟩ := List.mem_map.1 hl
  exact ⟨by simp [keyword], by simp [keyword]⟩

private theorem entries {es : List (List Lexeme)} (h : ∀ e ∈ es, Inline e) :
    Inline (entries es) := by
  induction es with
  | nil => exact nil
  | cons e es ih =>
    have he := h e List.mem_cons_self
    cases es with
    | nil => simpa [Lexeme.entries] using he
    | cons f es =>
      rw [entries_cons_cons]
      exact he.append ((singleton (by simp [comma]) (by simp [comma])).append
        (ih fun g hg => h g (List.mem_cons_of_mem e hg)))

theorem group {g g' : Text} {es : List (List Lexeme)} (hg : '\n' ∉ g) (hg' : '\n' ∉ g')
    (h : ∀ e ∈ es, Inline e) : Inline (group g es g') :=
  (singleton (l := ⟨g, ['('], .openParen⟩) hg (by simp)).append
    ((entries h).append (singleton (l := ⟨g', [')'], .closeParen⟩) hg' (by simp)))

end Lexeme.Inline

private theorem TypePhrase.inline_lexemes (p : TypePhrase) : Inline p.lexemes := by
  have hl : Inline p.list := by
    unfold list
    split
    · exact .nil
    · refine .group (by simp) (by simp) fun e he => ?_
      obtain ⟨a, -, rfl⟩ := List.mem_map.1 he
      cases a <;> exact .singleton (by simp) (by simp [Argument.lexeme])
  exact (Inline.keywords _).append (hl.append (.keywords _))

private theorem DefaultPhrase.inline_lexemes (v : DefaultPhrase) : Inline v.lexemes := by
  cases v with
  | truth value =>
    cases value with
    | true => exact .keywords ["TRUE"]
    | false => exact .keywords ["FALSE"]
  | now => exact (Inline.keywords ["NOW"]).append (.group (by simp) (by simp) (by simp))
  | clock => exact .keywords ["CURRENT_TIMESTAMP"]
  | updated => exact .keywords ["CURRENT_TIMESTAMP", "ON", "UPDATE", "CURRENT_TIMESTAMP"]
  | literal value =>
    rw [lexemes_literal]
    exact .singleton (by simp) (by simp)

private theorem ClausePhrase.inline_lexemes (p : ClausePhrase) : Inline p.lexemes := by
  cases p with
  | unsigned => exact .keywords ["UNSIGNED"]
  | null => exact .keywords ["NULL"]
  | notNull => exact .keywords ["NOT", "NULL"]
  | primaryKey => exact .keywords ["NOT", "NULL", "PRIMARY", "KEY"]
  | autoIncrement => exact .keywords ["AUTO_INCREMENT"]
  | defaultValue value => exact (Inline.keywords ["DEFAULT"]).append value.inline_lexemes
  | comment text => exact (Inline.keywords ["COMMENT"]).append (.singleton (by simp) (by simp))

theorem ColumnPhrase.inline_afterName (p : ColumnPhrase) : Inline p.afterName := by
  have hc : Inline (p.clausePhrases.flatMap ClausePhrase.lexemes) := by
    intro l hl
    obtain ⟨c, -, hl⟩ := List.mem_flatMap.1 hl
    exact c.inline_lexemes l hl
  rw [afterName_eq]
  exact p.type.inline_lexemes.append hc

namespace Statement

variable {ls : List Lexeme} {r t : Text}

theorem passes_source (h : Clear ls r) (hi : Inline ls) : Passes (source ls) r := by
  induction ls with
  | nil => exact passes_nil
  | cons l ls ih =>
    obtain ⟨hg, hk⟩ := hi l List.mem_cons_self
    have hrest := ih h.2 fun m hm => hi m (List.mem_cons_of_mem l hm)
    have hl := h.1
    rw [source_cons]
    refine (passes_separators hl.gap hg).append (Passes.append ?_ hrest)
    exact passes_written hl.written hk hl.starts

/-- A line break before an ordinary line is a character like any other. -/
theorem passes_newline (ht : t ≠ []) (h : Ordinary (firstLine t)) : Passes ['\n'] t := by
  intro P
  rw [List.singleton_append, resume_newline, ofLines_ordinary ht h, extended]
  by_cases hP : Text.blank P = true
  · have hPn : Text.blank (P ++ ['\n']) = true := by rw [Text.blank_append, hP]; rfl
    rw [hP, resume_of_blank t hPn]
    exact resume_of_blank t hP
  · rw [Bool.not_eq_true] at hP
    rw [hP]
    simp

/-- A line of three words is no directive. -/
theorem directive?_of_length {line : Text} (h : 2 < (Text.words line).length) :
    directive? line = none := by
  unfold directive?
  split
  · next he => simp [he] at h
  · rfl

/-- A line that begins with another letter is no directive. -/
theorem directive?_of_head {b w : Text} {c : Char} (hb : Text.blank b = true)
    (hc : Text.isBlank c = false) (hd : c.toLower ≠ 'd') : directive? (b ++ c :: w) = none := by
  obtain ⟨v, vs, hw⟩ := Text.words_cons hc w
  have hs : Text.same (c :: v) "delimiter" = false :=
    DefaultPhrase.same_cons (d := 'd') v (by decide) hd
  unfold directive?
  rw [Text.words_blank_append hb, hw]
  split
  · next keyword token he =>
    obtain ⟨rfl, -⟩ := List.cons.inj he
    rw [hs]
    rfl
  · rfl

private theorem firstLine_cons {b w : Text} {c : Char} (hb : '\n' ∉ b) (hc : c ≠ '\n') :
    firstLine (b ++ c :: w) = b ++ c :: firstLine w := by
  rw [firstLine_append hb]
  simp [firstLine, hc]

/-- A line break before a line that begins with a letter other than that of a directive. -/
theorem passes_newline_of_head {b w : Text} {c : Char} (hn : '\n' ∉ b) (hb : Text.blank b = true)
    (hc : Text.isBlank c = false) (hdash : c ≠ '-') (hd : c.toLower ≠ 'd') :
    Passes ['\n'] (b ++ c :: w) := by
  have hcn : c ≠ '\n' := by
    rintro rfl
    exact absurd hc (by decide)
  refine passes_newline (by simp) ?_
  rw [firstLine_cons hn hcn]
  exact ordinary hb hc (fun h => hdash h.1) (directive?_of_head hb hc hd)

end Statement

end TableDialects
