import TableDialects.Proofs.Statement.Scanning
import TableDialects.Proofs.Token.Phrase

/-!
# Statements as groups of tokens

The splitter and the lexer agree about where statements end: the tokens of the statements are the
groups between the semicolons of the script.
-/
namespace TableDialects

namespace Lexeme

/-- The text from its first token on. -/
def skip (t : Text) : Text := t.drop (gapLength t)

theorem skip_nil : skip [] = [] := by
  simp [skip]

theorem skip_cons {c : Char} (hc : isSeparator c = true) (t : Text) : skip (c :: t) = skip t := by
  rw [skip, gapLength_cons hc, List.drop_succ_cons, skip]

private theorem skip_append {g : Text} (hg : ∀ c ∈ g, isSeparator c = true) (t : Text) :
    skip (g ++ t) = skip t := by
  induction g with
  | nil => rfl
  | cons c g ih =>
    rw [List.cons_append, skip_cons (hg c List.mem_cons_self),
      ih fun d hd => hg d (List.mem_cons_of_mem c hd)]

private theorem skip_of_startsToken {t : Text} (h : startsToken t = true) : skip t = t := by
  rw [skip, gapLength_of_startsToken h, List.drop_zero]

theorem skip_suffix (t : Text) : skip t <:+ t := List.drop_suffix _ _

theorem lineLength?_eq {t : Text} (h : '\r' ∉ t) :
    lineLength? t = some (Statement.firstLine t).length := by
  fun_induction lineLength? t with
  | case1 => rfl
  | case2 => simp
  | case3 => simp at h
  | case4 => simp at h
  | case5 c cs hn _ ih =>
    have hc : c ≠ '\n' := hn
    rw [ih fun hm => h (List.mem_cons_of_mem c hm)]
    simp [Statement.firstLine, hc]

/-- A comment reaches to the end of its line. -/
theorem skip_comment {t : Text} (h : '\r' ∉ t) :
    skip ('-' :: '-' :: t) = skip (Statement.afterLine t) := by
  have hl : skipLength ('-' :: '-' :: t) = (Statement.firstLine t).length + 2 := by
    simp [skipLength, lineLength?_eq h]
  have hg : gapLength ('-' :: '-' :: t) = (Statement.firstLine t).length + 2 +
      gapLength (t.drop (Statement.firstLine t).length) := by
    rw [gapLength, hl]
    simp
  have hs : skip ('-' :: '-' :: t) = skip (t.drop (Statement.firstLine t).length) := by
    rw [skip, hg, skip, ← List.drop_drop]
    rfl
  rcases Statement.drop_firstLine t with ⟨hd, ha⟩ | hd
  · rw [hs, hd, ha]
  · rw [hs, hd, skip_cons (by rfl)]

theorem gapLength_skip (t : Text) : gapLength (skip t) = 0 := by
  unfold skip
  fun_induction gapLength t with
  | case1 => simp [gapLength]
  | case2 c cs h => rw [List.drop_zero, gapLength, h]
  | case3 c cs n _ ih =>
    rw [Nat.add_right_comm, List.drop_succ_cons, ← List.drop_drop]
    exact ih

theorem skipLength_of_gapLength {c : Char} {cs : Text} (h : gapLength (c :: cs) = 0) :
    skipLength (c :: cs) = 0 := by
  rw [gapLength] at h
  split at h
  · assumption
  · omega

private theorem tokenize_of_skip_nil {t : Text} (h : skip t = []) : tokenize t = [] := by
  rw [tokenize, lex_of_drop_nil h]

private theorem tokenize_of_skip_cons {t : Text} {c : Char} {cs : Text} (h : skip t = c :: cs) :
    (tokenize t).map (·.token) =
      (Token.read c cs).token :: (tokenize (Token.read c cs).rest).map (·.token) := by
  rw [tokenize, lex_of_drop_cons h]
  rfl

end Lexeme

namespace Statement

open Lexeme
open Text (Solid)

/-- A script without block comments and directives, whose blanks separate tokens. -/
structure Plain (t : Text) : Prop where
  separators : ∀ c ∈ t, Text.isBlank c = true → c = ' ' ∨ c = '\t' ∨ c = '\n'
  no_block : ¬ "/*".toList <:+: t
  no_directive : ∀ u v, t = u ++ '\n' :: v → directive? (firstLine v) = none

theorem isBlank_of_isSeparator {c : Char} (h : isSeparator c = true) : Text.isBlank c = true := by
  simp only [isSeparator, Bool.or_eq_true, beq_iff_eq] at h
  rcases h with ((rfl | rfl) | rfl) | rfl <;> decide

namespace Plain

variable {t u : Text}

theorem of_suffix (h : Plain t) (hu : u <:+ t) : Plain u where
  separators c hc := h.separators c (hu.subset hc)
  no_block hb := h.no_block (hb.trans hu.isInfix)
  no_directive a b hab := by
    obtain ⟨w, rfl⟩ := hu
    exact h.no_directive (w ++ a) b (by rw [hab, List.append_assoc])

theorem not_mem_return (h : Plain t) : '\r' ∉ t := by
  intro hm
  exact absurd (h.separators '\r' hm (by decide)) (by decide)

theorem isSeparator (h : Plain t) {c : Char} (hc : c ∈ t) (hb : Text.isBlank c = true) :
    Lexeme.isSeparator c = true := by
  rcases h.separators c hc hb with rfl | rfl | rfl <;> rfl

/-- What neither separates nor begins a comment begins a token. -/
theorem startsToken {c : Char} (h : Plain (c :: t)) (hc : Text.isBlank c = false)
    (hd : ¬ (c = '-' ∧ t.head? = some '-')) : Lexeme.startsToken (c :: t) = true := by
  have hs : Lexeme.isSeparator c = false := by
    by_contra hs
    rw [isBlank_of_isSeparator (by simpa using hs)] at hc
    exact absurd hc (by simp)
  have hb : ¬ (c = '/' ∧ t.head? = some '*') := by
    rintro ⟨rfl, ht⟩
    obtain ⟨t, rfl⟩ := List.head?_eq_some_iff.1 ht
    exact h.no_block ⟨[], t, rfl⟩
  simp only [Lexeme.startsToken, hs]
  rw [not_and_or] at hd hb
  simpa using ⟨hd, hb⟩

/-- What follows a line is plain and begins with no directive. -/
theorem afterLine (h : Plain t) :
    Plain (afterLine t) ∧ directive? (firstLine (Statement.afterLine t)) = none := by
  refine ⟨h.of_suffix (afterLine_suffix t), ?_⟩
  rcases eq_firstLine t with ht | ht
  · have : Statement.afterLine t = [] := by
      rw [ht]
      exact afterLine_of_not_mem (not_mem_firstLine t)
    rw [this]
    rfl
  · exact h.no_directive _ _ ht

end Plain

section
variable {P t : Text}

/-- The scanner leaves out a comment. -/
theorem resume_comment : resume semicolon P none ('-' :: '-' :: t) =
    resume semicolon P none (t.drop (firstLine t).length) := by
  have hf : firstLine ('-' :: '-' :: t) = '-' :: '-' :: firstLine t :=
    firstLine_append (w := ['-', '-']) (by decide) t
  have ha : afterLine ('-' :: '-' :: t) = afterLine t :=
    afterLine_append (w := ['-', '-']) (by decide) t
  have hc : cut semicolon none ('-' :: '-' :: firstLine t) = ⟨[], [], none⟩ := by
    rw [cut]
    simp [Token.isQuote]
  have hl : resume semicolon P none ('-' :: '-' :: t) =
      ofLines semicolon (extended P [] none) none (linesOf (afterLine t)) := by
    simp only [resume, hf, ha, hc]
  rcases drop_firstLine t with ⟨h, hnil⟩ | h
  · rw [hl, h, hnil]
    simp [resume, firstLine, afterLine, cut_nil]
  · rw [hl, h, resume_newline]

/-- The scanner passes what the lexer skips at the start of a line. -/
theorem exists_ofLines_skip (h : Plain t) (hd : directive? (firstLine t) = none) (P : Text) :
    ∃ s, (∀ c ∈ s, isSeparator c = true) ∧
      ofLines semicolon P none (linesOf t) = resume semicolon (P ++ s) none (skip t) := by
  induction hn : t.length using Nat.strongRecOn generalizing t P with
  | ind n ih =>
    obtain ⟨b, u, rfl, hb, hu⟩ := Text.exists_span (fun c => Text.isBlank c && c != '\n') t
    have hblank : Text.blank b = true := by
      simp only [Text.blank, List.all_eq_true]
      exact fun c hc => (Bool.and_eq_true _ _ ▸ hb c hc).1
    have hline : '\n' ∉ b := fun hm => by simpa using hb '\n' hm
    have hsep : ∀ c ∈ b, isSeparator c = true := fun c hc =>
      h.isSeparator (List.mem_append_left u hc) (List.all_eq_true.1 hblank c hc)
    cases u with
    | nil =>
      refine ⟨[], by simp, ?_⟩
      rw [skip_append hsep, skip_nil, resume_nil, List.append_nil, List.append_nil,
        ofLines_last_blank hline hblank]
    | cons c v =>
      have hv : v <:+ b ++ c :: v := (List.suffix_cons c v).trans (List.suffix_append b _)
      have hlen : v.length < n := by simp at hn; omega
      by_cases hc : c = '\n'
      · subst hc
        obtain ⟨s, hs, hres⟩ := ih v.length hlen (h.of_suffix hv) (h.no_directive b v rfl)
          (if Text.blank P then P else P ++ ['\n']) rfl
        rw [ofLines_blank_line hline hblank, skip_append hsep, skip_cons (by rfl), hres]
        split
        · exact ⟨s, hs, rfl⟩
        · exact ⟨'\n' :: s, by simpa using ⟨rfl, hs⟩, by simp⟩
      · have hcb : Text.isBlank c = false := by
          simpa [hc] using Text.takeWhile_eq_nil_cons.1 hu
        by_cases hdash : c = '-' ∧ v.head? = some '-'
        · obtain ⟨rfl, hv'⟩ := hdash
          obtain ⟨v, rfl⟩ := List.head?_eq_some_iff.1 hv'
          have hp := (h.of_suffix hv).of_suffix (List.suffix_cons '-' v)
          obtain ⟨s, hs, hres⟩ := ih (afterLine v).length
            (by have := (afterLine_suffix v).length_le; simp at hlen; omega)
            hp.afterLine.1 hp.afterLine.2 P rfl
          refine ⟨s, hs, ?_⟩
          rw [ofLines_comment_line hline hblank, skip_append hsep, skip_comment hp.not_mem_return,
            hres]
        · have hfirst : firstLine (b ++ c :: v) = b ++ c :: firstLine v := by
            rw [firstLine_append hline, ← List.singleton_append,
              firstLine_append (by simpa using Ne.symm hc), List.singleton_append]
          have hord : Ordinary (firstLine (b ++ c :: v)) := by
            rw [hfirst] at hd ⊢
            exact ordinary hblank hcb
              (fun h => hdash ⟨h.1, by_contra fun hne => head?_firstLine hne h.2⟩) hd
          have hstart := (h.of_suffix (List.suffix_append b (c :: v))).startsToken hcb hdash
          refine ⟨b, hsep, ?_⟩
          rw [ofLines_ordinary (by simp) hord, skip_append hsep, skip_of_startsToken hstart,
            passes_separators hsep hline]

private theorem exists_resume_newline (h : Plain t) (hd : directive? (firstLine t) = none)
    (P : Text) : ∃ s, (∀ c ∈ s, isSeparator c = true) ∧
      resume semicolon P none ('\n' :: t) = resume semicolon (P ++ s) none (skip t) ∧
      (s ≠ [] ∨ Text.blank P = true) := by
  obtain ⟨s, hs, hres⟩ := exists_ofLines_skip h hd (extended P [] none)
  rw [resume_newline, hres]
  cases hP : Text.blank P with
  | true => exact ⟨s, hs, by simp [extended, hP, show Text.blank [] = true from rfl], .inr rfl⟩
  | false => exact ⟨'\n' :: s, by simpa using ⟨rfl, hs⟩, by simp [extended, hP], .inl (by simp)⟩

/-- The scanner passes what the lexer skips. What it keeps of it still ends the tokens before. -/
theorem exists_resume_skip (h : Plain t) (P : Text) :
    ∃ s, (∀ c ∈ s, isSeparator c = true) ∧
      resume semicolon P none t = resume semicolon (P ++ s) none (skip t) ∧
      (s = [] ∧ skip t = t ∨ Token.breaks (s ++ skip t) = true ∨ Text.blank P = true) := by
  have hbreaks : ∀ {s u : Text}, (∀ c ∈ s, isSeparator c = true) → s ≠ [] →
      Token.breaks (s ++ u) = true := by
    intro s u hs hne
    obtain ⟨c, s, rfl⟩ := List.exists_cons_of_ne_nil hne
    simp [Token.breaks, Token.isBreak, hs c List.mem_cons_self]
  induction t generalizing P with
  | nil => exact ⟨[], by simp, by rw [skip_nil, List.append_nil], .inl ⟨rfl, skip_nil⟩⟩
  | cons c t ih =>
    have ht := h.of_suffix (List.suffix_cons c t)
    by_cases hn : c = '\n'
    · subst hn
      obtain ⟨s, hs, hres, hside⟩ := exists_resume_newline ht (h.no_directive [] t rfl) P
      rw [skip_cons (by rfl)]
      exact ⟨s, hs, hres, .inr (hside.imp_left (hbreaks hs))⟩
    by_cases hb : Text.isBlank c = true
    · have hc := h.isSeparator List.mem_cons_self hb
      have hp : Passes [c] t := passes_separators (by simpa using hc) (by simpa using Ne.symm hn)
      obtain ⟨s, hs, hres, -⟩ := ih ht (P ++ [c])
      rw [skip_cons hc]
      have hcs : ∀ e ∈ c :: s, isSeparator e = true := by simpa using ⟨hc, hs⟩
      refine ⟨c :: s, hcs, ?_, .inr (.inl (hbreaks hcs (by simp)))⟩
      rw [← List.singleton_append, hp, hres, List.append_assoc]
      rfl
    by_cases hdash : c = '-' ∧ t.head? = some '-'
    · obtain ⟨rfl, ht'⟩ := hdash
      obtain ⟨t, rfl⟩ := List.head?_eq_some_iff.1 ht'
      have hp := ht.of_suffix (List.suffix_cons '-' t)
      rw [resume_comment, skip_comment hp.not_mem_return]
      rcases drop_firstLine t with ⟨hd, ha⟩ | hd
      · rw [hd, ha, skip_nil]
        exact ⟨[], by simp, by rw [List.append_nil], .inr (.inl rfl)⟩
      · obtain ⟨s, hs, hres, hside⟩ := exists_resume_newline hp.afterLine.1 hp.afterLine.2 P
        rw [hd]
        exact ⟨s, hs, hres, .inr (hside.imp_left (hbreaks hs))⟩
    · refine ⟨[], by simp, ?_, .inl ⟨rfl, ?_⟩⟩
      all_goals rw [skip_of_startsToken (h.startsToken (by simpa using hb) hdash)]
      rw [List.append_nil]

end

/-- What the lexer stops at begins a token. -/
theorem startsToken_skip {t : Text} (h : Plain t) (hne : skip t ≠ []) :
    startsToken (skip t) = true := by
  obtain ⟨c, u, hu⟩ := List.exists_cons_of_ne_nil hne
  have hp := h.of_suffix (skip_suffix t)
  have hlen := gapLength_skip t
  rw [hu] at hp hlen ⊢
  have hskip := skipLength_of_gapLength hlen
  refine hp.startsToken ?_ ?_
  · by_contra hb
    have hc := hp.isSeparator List.mem_cons_self (by simpa using hb)
    rw [gapLength_cons hc] at hlen
    omega
  · rintro ⟨rfl, hd⟩
    obtain ⟨v, rfl⟩ := List.head?_eq_some_iff.1 hd
    have hr : '\r' ∉ v := fun hm => hp.not_mem_return (by simp [hm])
    simp [skipLength, lineLength?_eq hr] at hskip

/-- A token that begins with no blank ends with none. -/
theorem solid_of_written {r u : Text} {k : Token} (h : Token.Written r k u)
    (hhead : u.head?.any Text.isBlank = false) : Solid u := by
  obtain ⟨c, cs, rfl, -⟩ := h.read
  have hfirst : Text.isBlank c = false := by simpa using hhead
  have hword : (∀ d ∈ c :: cs, Token.continuesWord d = true ∨ d = '.') →
      ∀ d ∈ (c :: cs).getLast?, Text.isBlank d = false := by
    intro hw d hd
    rcases hw d (List.mem_of_mem_getLast? hd) with h | rfl
    · exact Token.isBlank_of_continuesWord h
    · decide
  refine ⟨by simp, by simpa using hfirst, ?_⟩
  cases h with
  | literal hq h _ =>
    intro d hd
    rw [List.getLast?_cons, h.getLast?] at hd
    obtain rfl : c = d := by simpa using hd
    exact hfirst
  | number _ h => exact hword (Token.mem_numeral h)
  | word hc hcs _ => exact hword fun d hd => .inl (Token.continuesWord_of_mem hc hcs d hd)
  | cast => simpa using by decide
  | _ => simpa using hfirst

theorem solid_sourceFromToken {l : Lexeme} {ls : List Lexeme}
    (h : ∀ m ∈ l :: ls, Solid m.text) : Solid (sourceFromToken (l :: ls)) := by
  induction ls generalizing l with
  | nil => simpa [sourceFromToken] using h l (by simp)
  | cons m ls ih =>
    have hm := ih fun n hn => h n (List.mem_cons_of_mem l hn)
    have hs : sourceFromToken (l :: m :: ls) = l.text ++ m.gap ++ sourceFromToken (m :: ls) := by
      simp [sourceFromToken]
    rw [hs]
    exact (h l List.mem_cons_self).append m.gap hm

/-- The tokens of a statement. -/
def tokens (s : Statement) : List Token := (tokenize s.text).map (·.token)

/-- The tokens between semicolons, where there are any. -/
def groups (ts : List Token) : List (List Token) :=
  (ts.splitOn (.punct ';')).filter (!·.isEmpty)

private theorem tokenize_sourceFromToken {l : Lexeme} {ls : List Lexeme} {r : Text}
    (h : Clear (l :: ls) r) :
    (tokenize (sourceFromToken (l :: ls))).map (·.token) = (l :: ls).map (·.token) := by
  have hc : Clear ({ l with gap := [] } :: ls) [] := by
    refine Clear.congr (r := r) ⟨⟨by simp, h.1.starts, h.1.written⟩, h.2⟩ rfl
  have := tokenize_source hc
  rw [source_cons, List.nil_append] at this
  rw [sourceFromToken, this]
  rfl

private theorem map_tokens_closed {term s : Text} {ls : List Lexeme} (h : Clear ls s)
    (hs : ∀ c ∈ s, isSeparator c = true) (hsolid : ∀ l ∈ ls, Solid l.text) :
    (closed term (source ls ++ s)).map tokens = [ls.map (·.token)].filter (!·.isEmpty) := by
  have hblank : ∀ {g : Text}, (∀ c ∈ g, isSeparator c = true) → Text.blank g = true := by
    intro g hg
    exact List.all_eq_true.2 fun c hc => isBlank_of_isSeparator (hg c hc)
  cases ls with
  | nil =>
    rw [source_nil, List.nil_append, closed_of_blank (hblank hs)]
    rfl
  | cons l ls =>
    rw [closed_source (hblank h.1.gap) (hblank hs) (solid_sourceFromToken hsolid)]
    simp [tokens, tokenize_sourceFromToken h]

private theorem groups_append_semicolon {as : List Token} (h : .punct ';' ∉ as) (bs : List Token) :
    groups (as ++ .punct ';' :: bs) = [as].filter (!·.isEmpty) ++ groups bs := by
  rw [groups, List.splitOn_append_cons_self_of_not_mem h, ← List.singleton_append,
    List.filter_append]
  rfl

private theorem groups_of_not_mem {as : List Token} (h : .punct ';' ∉ as) :
    groups as = [as].filter (!·.isEmpty) := by
  rw [groups, List.splitOn_eq_singleton h]

private theorem breaks_separators {s : Text} (hs : ∀ c ∈ s, isSeparator c = true) :
    Token.breaks s = true := by
  cases s with
  | nil => rfl
  | cons c s => simp [Token.breaks, Token.isBreak, hs c List.mem_cons_self]

theorem eq_of_written_punct {r u : Text} {c : Char} (h : Token.Written r (.punct c) u) :
    u = [c] := by
  generalize hk : Token.punct c = k at h
  cases h with
  | literal =>
    unfold Token.ofLiteral at hk
    split at hk <;> cases hk
  | punct => cases hk; rfl
  | _ => cases hk

/-- The lexemes of the open statement stay clear when the scanner goes over a gap. -/
theorem clear_skip {t s s' : Text} {ls : List Lexeme} (hclear : Clear ls (s ++ t))
    (hs : ∀ c ∈ s, isSeparator c = true) (hsolid : ∀ l ∈ ls, Solid l.text)
    (hside : s' = [] ∧ skip t = t ∨ Token.breaks (s' ++ skip t) = true ∨
      Text.blank (source ls ++ s) = true) : Clear ls (s ++ s' ++ skip t) := by
  rw [List.append_assoc]
  rcases hside with ⟨rfl, hskip⟩ | hbreaks | hblank
  · rwa [hskip]
  · cases s with
    | nil => exact hclear.congr hbreaks
    | cons c s => exact hclear.congr (by simp [Token.breaks, Token.isBreak, hs c])
  · -- a blank statement has no lexemes
    cases ls with
    | nil => trivial
    | cons l ls =>
      obtain ⟨c, u, hu, hc⟩ := (hsolid l (by simp)).exists_cons
      simp [Text.blank, hu, hc] at hblank

/-- The scanner and the lexer in lockstep: `ls` are the lexemes of the open statement, and `s`
separates them from the text that is left. -/
theorem map_tokens_resume {t s : Text} {ls : List Lexeme} (h : Plain t)
    (hquote : ∀ k ∈ (tokenize t).map (·.token), ∀ q, Token.isQuote q = true → k ≠ .punct q)
    (hs : ∀ c ∈ s, isSeparator c = true) (hclear : Clear ls (s ++ t))
    (hsolid : ∀ l ∈ ls, Solid l.text) (hsemi : .punct ';' ∉ ls.map (·.token)) :
    (resume semicolon (source ls ++ s) none t).map tokens =
      groups (ls.map (·.token) ++ (tokenize t).map (·.token)) := by
  induction hn : t.length using Nat.strongRecOn generalizing t s ls with
  | ind n ih =>
    obtain ⟨s', hs', hres, hside⟩ := exists_resume_skip h (source ls ++ s)
    have hsep : ∀ c ∈ s ++ s', isSeparator c = true := by
      simpa only [List.mem_append, or_imp, forall_and] using ⟨hs, hs'⟩
    have hgap := clear_skip hclear hs hsolid hside
    rw [hres, List.append_assoc]
    cases hu : skip t with
    | nil =>
      rw [hu, List.append_nil] at hgap
      rw [resume_nil, tokenize_of_skip_nil hu, List.map_nil, List.append_nil,
        groups_of_not_mem hsemi, map_tokens_closed hgap hsep hsolid]
    | cons c cs =>
      have htok := tokenize_of_skip_cons hu
      have hstart := startsToken_skip h (by simp [hu])
      have hplain := h.of_suffix (skip_suffix t)
      have hlen : (Token.read c cs).rest.length < n := by
        have h₁ := Token.length_rest_read c cs
        have h₂ := (skip_suffix t).length_le
        rw [hu, List.length_cons] at h₂
        omega
      rw [htok] at hquote ⊢
      obtain ⟨happ, hw⟩ := @Token.written_read c cs (hquote _ List.mem_cons_self)
      rw [hu, happ] at hgap hstart hplain
      rw [happ]
      generalize (Token.read c cs).text = u at *
      generalize (Token.read c cs).token = k at *
      generalize (Token.read c cs).rest = r at *
      have hr : Plain r := hplain.of_suffix (List.suffix_append u r)
      have hquote' : ∀ k ∈ (tokenize r).map (·.token), ∀ q, Token.isQuote q = true →
          k ≠ .punct q := fun m hm => hquote m (List.mem_cons_of_mem k hm)
      by_cases hk : k = .punct ';'
      · subst hk
        obtain rfl := eq_of_written_punct hw
        have hrest := @ih r.length hlen r [] [] hr hquote' (by simp) trivial (by simp) (by simp) rfl
        rw [List.singleton_append, resume_semicolon, List.map_append, groups_append_semicolon hsemi,
          map_tokens_closed (hgap.congr (breaks_separators hsep)) hsep hsolid]
        exact congrArg _ hrest
      · have hhead : u.head?.any Text.isBlank = false := by
          obtain ⟨d, ds, rfl, -⟩ := hw.read
          by_contra hd
          have := hplain.isSeparator (c := d) (by simp) (by simpa using hd)
          simp [startsToken, this] at hstart
        have hu := solid_of_written hw hhead
        have hnew : Clear (ls ++ [⟨s ++ s', u, k⟩]) ([] ++ r) := by
          refine clear_append.2 ⟨by simpa using hgap, ⟨hsep, ?_, ?_⟩, trivial⟩
          · simpa using hstart
          · simpa using hw
        have hrest := ih r.length hlen hr hquote' (s := []) (by simp) hnew
          (by simpa [or_imp, forall_and] using ⟨hsolid, hu⟩)
          (by simpa using ⟨by simpa using hsemi, Ne.symm hk⟩) rfl
        rw [passes_written hw hk hstart]
        simpa using hrest

theorem directive?_eq_none {line : Text}
    (h : ∀ w ∈ Text.words line, Text.same w "delimiter" = false) : directive? line = none := by
  unfold directive?
  split
  · next keyword token hw =>
    rw [hw] at h
    rw [h keyword List.mem_cons_self]
    rfl
  · rfl

private theorem mem_words_firstLine {v w : Text} (h : w ∈ Text.words (firstLine v)) :
    w ∈ Text.words v := by
  rcases eq_firstLine v with hv | hv
  · rwa [hv]
  · rw [hv, Text.words_append_cons (by decide)]
    exact List.mem_append_left _ h

private theorem plain_newline {script : Text}
    (hblank : ∀ c ∈ script, Text.isBlank c = true → c = ' ' ∨ c = '\t' ∨ c = '\n')
    (hblock : ¬ "/*".toList <:+: script)
    (hword : ∀ w ∈ Text.words script, Text.same w "delimiter" = false) :
    Plain ('\n' :: script) where
  separators := by
    intro c hc hb
    rcases List.mem_cons.1 hc with rfl | hc
    · exact .inr (.inr rfl)
    · exact hblank c hc hb
  no_block := by
    intro h
    rcases List.infix_cons_iff.1 h with h | h
    · exact absurd (List.cons_prefix_cons.1 h).1 (by decide)
    · exact hblock h
  no_directive := by
    intro u v huv
    have hw : Text.words script = Text.words u ++ Text.words v := by
      rw [← Text.words_append_cons (c := '\n') (by decide), ← huv]
      exact (Text.words_blank_append (b := ['\n']) (by decide) script).symm
    refine directive?_eq_none fun w hm => hword w ?_
    rw [hw]
    exact List.mem_append_right _ (mem_words_firstLine hm)

private theorem tokenize_newline (t : Text) :
    (tokenize ('\n' :: t)).map (·.token) = (tokenize t).map (·.token) := by
  have hs : skip ('\n' :: t) = skip t := skip_cons (by rfl) t
  cases h : skip t with
  | nil => rw [tokenize_of_skip_nil (hs.trans h), tokenize_of_skip_nil h]
  | cons c cs => rw [tokenize_of_skip_cons (hs.trans h), tokenize_of_skip_cons h]

/-- The statements of a script are the groups between its semicolons. It holds no block comment,
no word `delimiter`, no quote that is never closed and no blanks but spaces, tabs and line feeds. -/
theorem map_tokens_split {script : Text}
    (hblank : ∀ c ∈ script, Text.isBlank c = true → c = ' ' ∨ c = '\t' ∨ c = '\n')
    (hblock : ¬ "/*".toList <:+: script)
    (hword : ∀ w ∈ Text.words script, Text.same w "delimiter" = false)
    (hquote : ∀ l ∈ tokenize script, ∀ q, Token.isQuote q = true → l.token ≠ .punct q) :
    (split script).map tokens = groups ((tokenize script).map (·.token)) := by
  have h := plain_newline hblank hblock hword
  have hq : ∀ k ∈ (tokenize ('\n' :: script)).map (·.token), ∀ q, Token.isQuote q = true →
      k ≠ .punct q := by
    rw [tokenize_newline]
    intro k hk
    obtain ⟨l, hl, rfl⟩ := List.mem_map.1 hk
    exact hquote l hl
  have hres := @map_tokens_resume _ [] [] h hq (by simp) trivial (by simp) (by simp)
  have hr : '\r' ∉ script := fun hm => h.not_mem_return (List.mem_cons_of_mem _ hm)
  rw [split_eq, lineFeeds_of_not_mem hr, ← tokenize_newline]
  exact hres

/-- Semicolons stand in a comment, in a literal with a line break and doubled quotes, after a
backslash at the end of a line, and between statements. -/
theorem map_tokens_split_semicolons :
    let script : Text := "-- a;\nb 'c;\n''d;' ; e; -- f;\n'g\\\n;' -- h"
    (∀ c ∈ script, Text.isBlank c = true → c = ' ' ∨ c = '\t' ∨ c = '\n') ∧
      ¬ "/*".toList <:+: script ∧
      (∀ w ∈ Text.words script, Text.same w "delimiter" = false) ∧
      (∀ l ∈ tokenize script, ∀ q, Token.isQuote q = true → l.token ≠ .punct q) ∧
      (split script).map tokens =
        [[.word "b", .quoted '\'' "c;\n'd;"], [.word "e"], [.quoted '\'' "g\n;"]] := by
  intro script
  have hblank : ∀ c ∈ script, Text.isBlank c = true → c = ' ' ∨ c = '\t' ∨ c = '\n' := by
    have hall : (script.all fun c =>
        decide (Text.isBlank c = true → c = ' ' ∨ c = '\t' ∨ c = '\n')) = true := by
      decide +kernel
    exact fun c hc => of_decide_eq_true (List.all_eq_true.1 hall c hc)
  have hblock : ¬ "/*".toList <:+: script := by decide +kernel
  have hword : ∀ w ∈ Text.words script, Text.same w "delimiter" = false := by
    decide +kernel
  have htok : (tokenize script).map (·.token) =
      [.word "b", .quoted '\'' "c;\n'd;", .punct ';', .word "e", .punct ';',
        .quoted '\'' "g\n;"] := by decide +kernel
  have hquote : ∀ l ∈ tokenize script, ∀ q, Token.isQuote q = true → l.token ≠ .punct q := by
    intro l hl q hq hp
    have hm : Token.punct q ∈ (tokenize script).map (·.token) := hp ▸ List.mem_map_of_mem hl
    rw [htok] at hm
    obtain rfl : q = ';' := by simpa using hm
    exact absurd hq (by decide)
  refine ⟨hblank, hblock, hword, hquote, ?_⟩
  rw [map_tokens_split hblank hblock hword hquote, htok]
  decide +kernel

end Statement

end TableDialects
