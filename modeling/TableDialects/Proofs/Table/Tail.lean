import TableDialects.Proofs.Table.Header
import TableDialects.Proofs.Table.Unquoted
import TableDialects.Proofs.Token.Append

/-!
# Text behind a table

What follows the parenthesis that closes a table bears on nothing: the lexemes up to there are the
same, the same header is found among them, and its group ends where it did.
-/
namespace TableDialects

namespace Lexeme

/-- A group that is closed stays the same whatever follows. -/
theorem groupInner_append {ls : List Lexeme} {n : Nat}
    (h : Token.closing? 0 (ls.map (·.token)) = some n) (ms : List Lexeme) :
    groupInner (ls ++ ms) = groupInner ls := by
  have hn : n < ls.length := by
    have := (List.getElem?_eq_some_iff.1 (Token.getElem?_of_closing? h)).1
    simpa using this
  have hwith : Token.closing? 0 ((ls ++ ms).map (·.token)) = some n := by
    rw [← List.append_nil (ls.map _)] at h
    rw [List.map_append]
    exact Token.closing?_congr h (by simpa using hn)
  have hlength : ∀ ks : List Lexeme, Token.closing? 0 (ks.map (·.token)) = some n →
      groupLength ks = n + 1 := fun ks hk => by
    simp [groupLength, Token.groupEnd, hk]
  rw [groupInner, groupInner, hlength ls h, hlength (ls ++ ms) hwith,
    List.take_append_of_le_length hn]

end Lexeme

namespace Table

open Lexeme

variable {ls rest : List Lexeme} {name : Text} {names : List Text}

private theorem openParen_ne_of_name? {t : Token} (h : t.name? = some name) : .openParen ≠ t := by
  rintro rfl
  cases h

private theorem SpellsParts.not_mem {ts : List Token} (h : SpellsParts names ts) :
    .openParen ∉ ts := by
  induction h with
  | nil => simp
  | cons ht _ ih => simp [openParen_ne_of_name? ht, ih]

private theorem SpellsName.not_mem {ts : List Token} (h : SpellsName name ts) :
    .openParen ∉ ts := by
  cases h with
  | mk ht h => simp [openParen_ne_of_name? ht, h.not_mem]

/-- The parenthesis behind a header is the first one. -/
theorem SpellsHeader.not_mem {ts : List Token} (h : SpellsHeader name ts) : .openParen ∉ ts := by
  have hword : ∀ {t : Token} {w : String}, t.isWord w = true → .openParen ≠ t := by
    rintro _ _ h rfl
    cases h
  induction h with
  | plain ht h => simp [hword ht, h.not_mem]
  | conditional ht hi hn he h => simp [hword ht, hword hi, hword hn, hword he, h.not_mem]
  | @modified m _ hm _ ih =>
    have hne : m ≠ .openParen := by
      rintro rfl
      cases hm
    simp [hne.symm, ih]

private theorem headerAfterCreate?_append {l : Lexeme} (hl : l ∈ ls) (hopen : l.token = .openParen)
    (ms : List Lexeme) :
    headerAfterCreate? (ls ++ ms) = (headerAfterCreate? ls).map fun p => (p.1, p.2 ++ ms) := by
  cases h : headerAfterCreate? ls with
  | some p =>
    obtain ⟨us, hls, hus, hrest⟩ := headerAfterCreate?_eq_some_iff.1 h
    refine headerAfterCreate?_eq_some_iff.2 ⟨us, ?_, hus, ?_⟩
    · rw [hls, List.append_assoc]
    · obtain ⟨m, hm, htoken⟩ := Option.map_eq_some_iff.1 hrest
      rw [List.head?_append, hm]
      exact congrArg some htoken
  | none =>
    by_contra hsome
    obtain ⟨⟨name, rest⟩, hsome⟩ := Option.ne_none_iff_exists'.1 hsome
    obtain ⟨us, hsplit, hus, hrest⟩ := headerAfterCreate?_eq_some_iff.1 hsome
    have hmem : l ∉ us := fun hm => hus.not_mem (hopen ▸ List.mem_map_of_mem hm)
    rcases List.append_eq_append_iff.1 hsplit with ⟨as, rfl, -⟩ | ⟨bs, rfl, hbs⟩
    · exact hmem (List.mem_append_left as hl)
    · cases bs with
      | nil => exact hmem (by simpa using hl)
      | cons b bs =>
        have hsome : headerAfterCreate? (us ++ b :: bs) = some (name, b :: bs) :=
          headerAfterCreate?_eq_some_iff.2 ⟨us, rfl, hus, by rwa [hbs] at hrest⟩
        rw [h] at hsome
        cases hsome

/-- A header is found before anything that follows it. -/
theorem header?_append_right (h : header? ls = some (name, rest)) (ms : List Lexeme) :
    header? (ls ++ ms) = some (name, rest ++ ms) := by
  induction ls with
  | nil => cases h
  | cons l ls ih =>
    rw [List.cons_append, header?]
    rw [header?] at h
    split
    · next hl =>
      rw [if_pos hl] at h
      obtain ⟨m, hm, hopen⟩ : ∃ m ∈ ls, m.token = .openParen := by
        rcases Option.or_eq_some_iff.1 h with h | ⟨-, h⟩
        · obtain ⟨m, us, rfl, hm⟩ := Position.exists_of_headerAfterCreate? h
          exact ⟨m, (suffix_of_headerAfterCreate? h).subset List.mem_cons_self, hm⟩
        · obtain ⟨m, us, rfl, hm⟩ := Position.exists_of_header? h
          exact ⟨m, (suffix_of_header? h).subset List.mem_cons_self, hm⟩
      rw [headerAfterCreate?_append hm hopen]
      cases hafter : headerAfterCreate? ls with
      | some p =>
        rw [hafter, Option.some_or] at h
        cases h
        rfl
      | none =>
        rw [hafter, Option.none_or] at h
        rw [ih h]
        rfl
    · next hl => exact ih (by rwa [if_neg hl] at h)

/-- The text behind a table does not count, so that the result and the problems stay the same. -/
theorem read_append {p : Text} (hheader : header? (tokenize p) = some (name, ls))
    (hclosed : Token.closing? 0 (ls.map (·.token)) = some (ls.length - 1))
    (hend : (lex p).2 = [])
    (hquote : ∀ l ∈ tokenize p, ∀ q, Token.isQuote q = true → l.token ≠ .punct q)
    (hcomment : ∀ a b, [a, b] <:+: tokenize p → a.token = .punct '/' → b.token = .punct '*' →
      b.gap ≠ []) (tail : Text) : read (p ++ tail) = read p := by
  have hparen : EndsInParen p := by
    refine ⟨?_, hend⟩
    have hlast : ls.getLast?.map (·.token) = some .closeParen := by
      rw [← List.getLast?_map, List.getLast?_eq_getElem?, List.length_map]
      exact Token.getElem?_of_closing? hclosed
    obtain ⟨us, hus⟩ := suffix_of_header? hheader
    have hne : ls ≠ [] := by
      rintro rfl
      cases hlast
    rwa [← tokenize, ← hus, List.getLast?_append_of_ne_nil _ hne]
  have hlex := lex_append hparen hquote hcomment tail
  have hwith : header? (tokenize (p ++ tail)) = some (name, ls ++ tokenize tail) := by
    rw [tokenize, hlex]
    exact header?_append_right hheader _
  simp only [read, hheader, hwith, groupInner_append hclosed]

/-- Neither options nor further definitions count, nor do quotes and comments that stay open. -/
theorem read_append_options :
    let p : Text := "CREATE TABLE t (a INT, -- )\n b TEXT DEFAULT ')')"
    read (p ++ ")) ENGINE='x; CREATE TABLE u (c INT) /*".toList) = read p := by
  intro p
  have hheader : header? (tokenize p) = some ("t".toList, (tokenize p).drop 3) := by decide +kernel
  have htokens : (tokenize p).map (·.token) = [.word "CREATE", .word "TABLE", .word "t", .openParen,
      .word "a", .word "INT", .comma, .word "b", .word "TEXT", .word "DEFAULT", .quoted '\'' ")",
      .closeParen] := by
    decide +kernel
  have hpunct : ∀ l ∈ tokenize p, ∀ q, l.token ≠ .punct q := by
    intro l hl q hq
    have hm : Token.punct q ∈ (tokenize p).map (·.token) := hq ▸ List.mem_map_of_mem hl
    rw [htokens] at hm
    simp at hm
  exact read_append hheader (by decide +kernel) (by decide +kernel) (fun l hl q _ => hpunct l hl q)
    (fun a b hab ha => absurd ha (hpunct a (hab.subset (by simp)) '/')) _

end Table

end TableDialects
