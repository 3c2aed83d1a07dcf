import TableDialects.Dialect.Attribute
import TableDialects.Dialect.TypeName
import TableDialects.Proofs.Text.Doubled
import TableDialects.Proofs.Token.Phrase

/-!
# Literals as they are written

A literal writes a quote inside it twice but a backslash as it is, and the lexer takes a backslash
for an escape. So a text is read back from its literal just if it has no backslash.
-/
namespace TableDialects

namespace Token

/-- The value of a quoted literal. -/
def literalValue? : Token → Option Text
  | .quoted _ value => some value
  | _ => none

/-- A backslash in a value stands for two in the source. -/
theorem Quotes.count_backslash {q : Char} (hq : isQuote q = true) (hb : q ≠ '\x60') {v s : Text}
    (h : Quotes q v s) : 2 * v.count '\\' ≤ s.count '\\' := by
  have hne : q ≠ '\\' := by
    rintro rfl
    exact absurd hq (by decide)
  induction h with
  | close => simp
  | escape c d hc _ ih =>
    obtain ⟨rfl, -⟩ : c = '\\' ∧ q ≠ '\x60' := by simpa [escapes] using hc
    simp only [List.count_cons]
    split <;> simp <;> omega
  | twice _ ih => simpa [List.count_cons, hne] using ih
  | plain c hc _ _ ih =>
    have hcb : c ≠ '\\' := by
      rintro rfl
      simp [escapes, hb] at hc
    simpa [List.count_cons, hcb] using ih

private theorem literalValue?_readPlain (c : Char) (cs : Text) :
    (readPlain c cs).token.literalValue? = none := by
  unfold readPlain
  repeat' split
  all_goals rfl

private theorem count_backslash_read {c : Char} {cs v : Text}
    (h : (read c cs).token.literalValue? = some v) :
    2 * v.count '\\' ≤ (read c cs).text.count '\\' := by
  unfold read at h ⊢
  split
  · next hq =>
    simp only [hq, if_true] at h
    cases hl : literal? c cs with
    | none => simp [hl, literalValue?_readPlain] at h
    | some p =>
      obtain ⟨w, s, r⟩ := p
      simp only [hl, ofLiteral] at h ⊢
      split at h
      · simp [literalValue?] at h
      · next hb =>
        obtain rfl : w = v := by simpa [literalValue?] using h
        have hle := (quotes_of_literal? hl).2.1.count_backslash hq hb
        exact Nat.le_trans hle List.count_le_count_cons
  · next hq => simp [hq, literalValue?_readPlain] at h

end Token

theorem stringLiterals_eq (t : Text) :
    stringLiterals t = ((tokenize t).map (·.token)).filterMap Token.literalValue? := by
  rw [List.filterMap_map]
  rfl

/-- The values of the literals in a text have at most half of its backslashes. -/
theorem count_backslash_stringLiterals (t : Text) :
    2 * (stringLiterals t).flatten.count '\\' ≤ t.count '\\' := by
  rw [stringLiterals_eq, tokenize]
  fun_induction Lexeme.lex t with
  | case1 => simp
  | case2 t c cs ht r l ih =>
    have hcount : r.text.count '\\' + r.rest.count '\\' ≤ t.count '\\' := by
      rw [← List.count_append, ← Token.source_read, ← ht]
      exact (List.drop_sublist _ t).count_le '\\'
    let rest := (l.1.map (·.token)).filterMap Token.literalValue?
    have hrest : 2 * rest.flatten.count '\\' ≤ r.rest.count '\\' := ih
    rw [List.map_cons, List.filterMap_cons]
    cases hv : r.token.literalValue? with
    | none => exact Nat.le_trans hrest (by omega)
    | some v =>
      have hle : 2 * v.count '\\' ≤ r.text.count '\\' := Token.count_backslash_read hv
      rw [List.flatten_cons, List.count_append]
      change 2 * (v.count '\\' + rest.flatten.count '\\') ≤ _
      omega

section
open Lexeme

private theorem count_backslash_quoteLiteral (v : Text) :
    (quoteLiteral v).count '\\' = v.count '\\' := by
  have hd : (Text.doubled '\'' v).count '\\' = v.count '\\' := by
    induction v with
    | nil => rfl
    | cons c v ih =>
      rw [Text.doubled_cons, List.count_append, List.count_cons, ih]
      split
      · next hc =>
        subst hc
        simp
      · simp [List.count_singleton, Nat.add_comm]
  simp [quoteLiteral, Text.enclosed, hd]

/-- A literal as a lexeme. -/
def literal (g v : Text) : Lexeme := ⟨g, quoteLiteral v, .quoted '\'' v⟩

private theorem clear_literal {g v : Text} (hg : ∀ c ∈ g, isSeparator c = true) (hv : '\\' ∉ v) :
    Clear [literal g v] [] :=
  ⟨⟨hg, startsToken_cons (by decide) (by decide) (by decide) _,
    written_quoteLiteral hv (by simp)⟩, trivial⟩

private theorem literals_eq (values : List Text) :
    Dialect.literals values = Text.join [','] (values.map quoteLiteral) := rfl

private theorem count_backslash_literals (values : List Text) :
    (Dialect.literals values).count '\\' = values.flatten.count '\\' := by
  rw [literals_eq]
  induction values with
  | nil => rfl
  | cons v values ih =>
    have hv := count_backslash_quoteLiteral v
    cases values with
    | nil => simp [Text.join, hv]
    | cons w values => simpa [Text.join, hv] using ih

private theorem not_mem_of_stringLiterals {t : Text} {values : List Text}
    (h : stringLiterals t = values)
    (hc : t.count '\\' = values.flatten.count '\\') : ∀ v ∈ values, '\\' ∉ v := by
  have hle := count_backslash_stringLiterals t
  rw [h, hc] at hle
  have hz : values.flatten.count '\\' = 0 := by omega
  intro v hv hm
  exact List.count_eq_zero.1 hz (List.mem_flatten.2 ⟨v, hv, hm⟩)

private theorem stringLiterals_literals {values : List Text} (h : ∀ v ∈ values, '\\' ∉ v) :
    stringLiterals (Dialect.literals values) = values := by
  have hc : Clear (entries (values.map fun v => [literal [] v])) [] := clear_entries fun e he => by
    obtain ⟨v, hv, rfl⟩ := List.mem_map.1 he
    exact clear_literal (by simp) (h v hv)
  have ht := tokenize_source hc
  have hsource : (values.map fun v => [literal [] v]).map source = values.map quoteLiteral := by
    simp [literal]
  rw [source_entries, hsource, ← literals_eq] at ht
  rw [stringLiterals_eq, ht]
  clear ht hc h hsource
  induction values with
  | nil => rfl
  | cons v values ih =>
    cases values with
    | nil => rfl
    | cons w values =>
      rw [List.map_cons, List.map_cons, entries_cons_cons]
      exact congrArg (v :: ·) ih

private theorem stringLiterals_literals_iff {values : List Text} :
    stringLiterals (Dialect.literals values) = values ↔ ∀ v ∈ values, '\\' ∉ v :=
  ⟨fun h => not_mem_of_stringLiterals h (count_backslash_literals values), stringLiterals_literals⟩

private theorem tokens_comment_iff {text : Text} :
    (tokenize ("COMMENT ".toList ++ quoteLiteral text)).map (·.token) =
        [.word "COMMENT", .quoted '\'' text] ↔ '\\' ∉ text := by
  constructor
  · intro h
    have hvalues : stringLiterals ("COMMENT ".toList ++ quoteLiteral text) = [text] := by
      rw [stringLiterals_eq, h]
      rfl
    have hcount :
        ("COMMENT ".toList ++ quoteLiteral text).count '\\' = [text].flatten.count '\\' := by
      simp [count_backslash_quoteLiteral]
    exact not_mem_of_stringLiterals hvalues hcount text (List.mem_singleton_self text)
  · intro h
    have hc : Clear [⟨[], "COMMENT", .word "COMMENT"⟩, literal [' '] text] [] := by
      refine ⟨⟨by simp, by rfl, ?_⟩, clear_literal (by simp [isSeparator]) h⟩
      exact IsWord.written (by decide) rfl
    have ht := tokenize_source hc
    rw [show source _ = "COMMENT ".toList ++ quoteLiteral text by simp [literal]] at ht
    rw [ht]
    rfl

end

/-- Whatever is written as a literal is read back from it exactly if it has no backslash. -/
theorem stringLiterals_written (text : Text) (values : List Text) :
    (stringLiterals (quoteLiteral text) = [text] ↔ '\\' ∉ text) ∧
      (∃ clause, Dialect.comment? .mysql text = some clause ∧
        ((tokenize clause).map (·.token) = [.word "COMMENT", .quoted '\'' text] ↔
          '\\' ∉ text)) ∧
      ∃ body,
        Dialect.mysqlType (.enumeration values) = "enum(".toList ++ body ++ [')'] ∧
        Dialect.mysqlType (.set values) = "set(".toList ++ body ++ [')'] ∧
        (stringLiterals body = values ↔ ∀ v ∈ values, '\\' ∉ v) := by
  refine ⟨?_, ⟨_, rfl, tokens_comment_iff⟩,
    ⟨Dialect.literals values, rfl, rfl, stringLiterals_literals_iff⟩⟩
  have h := @stringLiterals_literals_iff [text]
  simpa [literals_eq, Text.join] using h

/-- The backslash is written once, and it is gone when the literal is read. -/
theorem stringLiterals_quoteLiteral_backslash :
    stringLiterals (quoteLiteral "a\\b") = ["ab".toList] ∧
      stringLiterals (quoteLiteral "a\\b") ≠ ["a\\b".toList] := by
  decide +kernel

end TableDialects
