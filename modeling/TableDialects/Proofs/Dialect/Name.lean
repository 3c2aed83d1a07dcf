import TableDialects.Dialect.Attribute
import TableDialects.Proofs.Text.Doubled
import TableDialects.Proofs.Token.Phrase

/-!
# Names in dialects

MySQL and PostgreSQL quote names, and SQLite writes them as they are. Such a name is read back if it
is a word by itself.
-/
namespace TableDialects

private theorem Token.Quotes.length_lt {q : Char} {v s : Text} (h : Quotes q v s) :
    v.length < s.length := by
  induction h with
  | close => simp
  | escape c d hc h ih =>
    simp only [List.length_cons]
    omega
  | twice h ih =>
    simp only [List.length_cons]
    omega
  | plain c he hc h ih =>
    simp only [List.length_cons]
    omega

namespace Lexeme

/-- A text that is a word by itself is bare, since a word between backticks is shorter than its
text. -/
theorem isWord_of_tokenize {w : Text} (h : tokenize w = [⟨[], w, .word w⟩]) : IsWord w := by
  rw [tokenize] at h
  cases hd : w.drop (gapLength w) with
  | nil =>
    rw [lex_of_drop_nil hd] at h
    simp at h
  | cons c cs =>
    rw [lex_of_drop_cons hd] at h
    obtain ⟨hl, -⟩ := List.cons.inj h
    rw [Lexeme.mk.injEq] at hl
    obtain ⟨-, ht, hk⟩ := hl
    have hw := (@Token.written_read c cs fun q _ => by simp [hk]).2
    rw [ht, hk] at hw
    generalize (Token.read c cs).rest = r at hw
    generalize hk' : Token.word w = k at hw
    cases hw with
    | @literal q v s hq hs hr =>
      have hlt := hs.length_lt
      unfold Token.ofLiteral at hk'
      split at hk'
      · have hv : (q :: s).length = v.length := congrArg List.length (Token.word.inj hk')
        simp only [List.length_cons] at hv
        omega
      · exact absurd hk' (by simp)
    | word hc hcs hr =>
      simp only [IsWord, List.head?_cons, Option.any_some, hc, List.tail_cons, Bool.true_and]
      exact List.all_eq_true.2 hcs
    | _ => exact absurd hk' (by simp)

end Lexeme

namespace Dialect

open Lexeme

/-- A name that is read back as it is written. -/
def CanName (d : Dialect) (name : Text) : Prop :=
  match d.family with
  | .sqlite => tokenize name = [⟨[], name, .word name⟩]
  | .mysql => '\r' ∉ name
  | .postgres => Text.Plain name

def nameToken (d : Dialect) (name : Text) : Token :=
  if d.family = .postgres then .quoted '\"' name else .word name

/-- A name after a gap. -/
def nameLexeme (d : Dialect) (g name : Text) : Lexeme := ⟨g, d.identifier name, d.nameToken name⟩

section
variable {d : Dialect} {name : Text}

@[simp] theorem name?_nameToken (d : Dialect) (name : Text) :
    (d.nameToken name).name? = some name := by
  unfold nameToken
  split <;> rfl

theorem isInner_nameToken (d : Dialect) (name : Text) :
    Token.isInner (d.nameToken name) = true := by
  unfold nameToken
  split <;> rfl

private theorem startsToken_identifier (h : d.CanName name) (r : Text) :
    startsToken (d.identifier name ++ r) = true := by
  cases hd : d.family with
  | sqlite =>
    rw [CanName, hd] at h
    rw [identifier, hd]
    exact (isWord_of_tokenize h).startsToken r
  | mysql =>
    rw [identifier, hd]
    exact startsToken_cons (by decide) (by decide) (by decide) _
  | postgres =>
    rw [identifier, hd]
    exact startsToken_cons (by decide) (by decide) (by decide) _

private theorem written_identifier (h : d.CanName name) :
    Token.Written [] (d.nameToken name) (d.identifier name) := by
  cases hd : d.family with
  | sqlite =>
    rw [CanName, hd] at h
    rw [identifier, nameToken, hd]
    exact (isWord_of_tokenize h).written rfl
  | mysql =>
    rw [identifier, nameToken, hd]
    exact .literal (q := '\x60') rfl (Token.quotes_doubled (.inl rfl)) (by simp)
  | postgres =>
    rw [CanName, hd] at h
    rw [identifier, nameToken, hd]
    exact .literal (q := '\"') rfl (Token.quotes_doubled (.inr h.no_backslash)) (by simp)

theorem clear_nameLexeme (h : d.CanName name) {g : Text} (hg : ∀ c ∈ g, isSeparator c = true) :
    Clear [d.nameLexeme g name] [] :=
  ⟨⟨hg, startsToken_identifier h _, written_identifier h⟩, trivial⟩

theorem not_mem_identifier (h : d.CanName name) : '\r' ∉ d.identifier name := by
  cases hd : d.family with
  | sqlite =>
    rw [CanName, hd] at h
    rw [identifier, hd]
    obtain ⟨c, cs, hname, hc, hcs⟩ := (isWord_of_tokenize h).exists_cons
    intro hm
    rcases List.mem_cons.1 (hname ▸ hm) with rfl | hm
    · exact absurd hc (by decide)
    · exact absurd (hcs _ hm) (by decide)
  | mysql =>
    rw [CanName, hd] at h
    rw [identifier, hd]
    exact Text.not_mem_enclosed (by decide) h
  | postgres =>
    rw [CanName, hd] at h
    rw [identifier, hd]
    exact Text.not_mem_enclosed (by decide) h.no_return

end

end Dialect

end TableDialects
