import TableDialects.Proofs.Token.Phrase

/-!
# Runs of letters, digits and points

A run without white space falls into numbers, points and words. No two words meet, and the numbers
and points in front of the first word are the digits and points that lead the run.
-/
namespace TableDialects

open Lexeme

namespace Text

/-- An ASCII letter, an underscore, a digit or a point. -/
def isRunChar (c : Char) : Bool := c.isAlphanum || c == '_' || c == '.'

/-- A digit or a point. -/
def isNumeric (c : Char) : Bool := c.isDigit || c == '.'

theorem isRunChar_cases {c : Char} (h : isRunChar c = true) :
    Token.isWordStart c = true ∨ isNumeric c = true := by
  simp only [isRunChar, Char.isAlphanum, Bool.or_eq_true, beq_iff_eq] at h
  rcases h with ((halpha | hdigit) | rfl) | rfl
  · have hascii : isAscii c = true := by
      delta Char.isAlpha Char.isUpper Char.isLower at halpha
      simp only [Bool.or_eq_true, Bool.and_eq_true, decide_eq_true_eq,
        UInt32.le_iff_toNat_le] at halpha
      have hbounds : 'Z'.val.toNat = 90 ∧ 'z'.val.toNat = 122 := by decide
      simp only [isAscii, Char.toNat, decide_eq_true_eq]
      omega
    exact .inl (by simp [Token.isWordStart, isLetter, hascii, halpha])
  · exact .inr (by simp [isNumeric, hdigit])
  · exact .inl (by decide)
  · exact .inr (by decide)

private theorem isNumeric_of_isWordStart {c : Char} (h : Token.isWordStart c = true) :
    isNumeric c = false := by
  have hpoint : c ≠ '.' := by
    rintro rfl
    exact absurd h (by decide)
  simp [isNumeric, Token.isDigit_of_isWordStart h, hpoint]

end Text

namespace Token

private theorem isNumeric_of_mem_numeral {r w : Text} (h : Numeral r w) :
    ∀ c ∈ w, Text.isNumeric c = true := by
  have hdigit : ∀ c : Char, c.isDigit = true → Text.isNumeric c = true := fun c hc => by
    simp [Text.isNumeric, hc]
  cases h with
  | whole h _ => exact fun c hc => hdigit c (h c hc)
  | fraction hd hf =>
    intro c hc
    rcases List.mem_append.1 hc with hc | hc
    · exact hdigit c (hd c hc)
    · rcases List.mem_cons.1 hc with rfl | hc
      · decide
      · exact hdigit c (hf c hc)

end Token

namespace Lexeme

/-- Numbers, points and words without white space, and no word after a word. -/
inductive IsRun : List Lexeme → Prop
  | nil : IsRun []
  | number {ds : Text} {ls : List Lexeme} (hd : ∀ c ∈ ds, Text.isNumeric c = true) (h : IsRun ls) :
      IsRun (⟨[], ds, .number ds⟩ :: ls)
  | point {ls : List Lexeme} (h : IsRun ls) : IsRun (⟨[], ['.'], .punct '.'⟩ :: ls)
  | word {w : Text} {ls : List Lexeme} (hw : IsWord w)
      (hn : ∀ l ∈ ls.head?, l.token.word? = none) (h : IsRun ls) : IsRun (⟨[], w, .word w⟩ :: ls)

theorem IsRun.token_of_word? {ls : List Lexeme} (h : IsRun ls) {l : Lexeme} (hl : l ∈ ls)
    (hw : l.token.word? ≠ none) : l.token = .word l.text := by
  induction h with
  | nil => exact absurd hl List.not_mem_nil
  | number _ _ ih | point _ ih =>
    rcases List.mem_cons.1 hl with rfl | hl
    · exact absurd rfl hw
    · exact ih hl
  | word _ _ _ ih =>
    rcases List.mem_cons.1 hl with rfl | hl
    · rfl
    · exact ih hl

theorem infix_source {ls : List Lexeme} {l : Lexeme} (h : l ∈ ls) : l.text <:+: source ls := by
  obtain ⟨as, bs, rfl⟩ := List.append_of_mem h
  exact ⟨source as ++ l.gap, source bs, by simp⟩

/-- The first word begins with a character that continues one. -/
theorem IsRun.word?_head {ls : List Lexeme} (h : IsRun ls)
    (hc : (source ls).takeWhile Token.continuesWord = []) :
    ∀ l ∈ ls.head?, l.token.word? = none := by
  intro l hl
  cases h with
  | nil => exact absurd hl (by simp)
  | number | point =>
    obtain rfl := Option.some.inj hl
    rfl
  | word hw =>
    obtain ⟨c, cs, rfl, hstart, -⟩ := hw.exists_cons
    have hnone : Token.continuesWord c = false := Text.takeWhile_eq_nil_cons.1 hc
    exact absurd (Token.continuesWord_of_isWordStart hstart) (by simp [hnone])

/-- What a run begins with, and what follows it. -/
theorem written_run {c : Char} (hc : Text.isRunChar c = true) (cs : Text) :
    ∃ k s rest, c :: cs = s ++ rest ∧ s ≠ [] ∧ ClearOf ⟨[], s, k⟩ rest ∧
      (k = .number s ∧ (∀ d ∈ s, Text.isNumeric d = true) ∨ k = .punct '.' ∧ s = ['.'] ∨
        k = .word s ∧ IsWord s ∧ rest.takeWhile Token.continuesWord = []) := by
  have hne : ∀ d : Char, Text.isRunChar d = false → c ≠ d := by
    rintro d hd rfl
    exact absurd hc (by simp [hd])
  have hq : Token.isQuote c = false := by
    simp [Token.isQuote, hne '\'' (by decide), hne '\"' (by decide), hne '\x60' (by decide)]
  have hs : isSeparator c = false := by
    simp [isSeparator, hne ' ' (by decide), hne '\t' (by decide), hne '\r' (by decide),
      hne '\n' (by decide)]
  obtain ⟨hsource, hwritten⟩ := Token.written_readPlain hq cs
  generalize Token.readPlain c cs = r at hsource hwritten
  obtain ⟨k, s, rest⟩ := r
  simp only at hsource hwritten
  have hstarts : startsToken (s ++ rest) = true := by
    rw [← hsource]
    exact startsToken_cons hs (hne _ (by decide)) (hne _ (by decide)) cs
  obtain ⟨d, ds, rfl, -⟩ := hwritten.read
  obtain ⟨rfl, -⟩ := List.cons.inj hsource
  refine ⟨k, c :: ds, rest, hsource, by simp, ⟨List.forall_mem_nil _, hstarts, hwritten⟩, ?_⟩
  cases hwritten with
  | literal hquote => exact absurd hquote (by simp [hq])
  | number _ h => exact .inl ⟨rfl, Token.isNumeric_of_mem_numeral h⟩
  | word hstart hrest hr =>
    exact .inr (.inr ⟨rfl, by simpa [IsWord] using ⟨hstart, hrest⟩, hr⟩)
  | cast | openParen | closeParen | comma => exact absurd hc (by decide)
  | punct hother =>
    simp only [Token.isOther, Bool.and_eq_true, Bool.not_eq_true'] at hother
    have hpoint : c = '.' := by
      rcases Text.isRunChar_cases hc with hstart | hnumeric
      · simp [hstart] at hother
      · simpa [Text.isNumeric, hother] using hnumeric
    exact .inr (.inl ⟨by rw [hpoint], by rw [hpoint]⟩)

/-- A run falls into lexemes that are read back from it. -/
theorem exists_isRun {x : Text} (hx : ∀ c ∈ x, Text.isRunChar c = true) :
    ∃ ls, source ls = x ∧ Clear ls [] ∧ IsRun ls := by
  -- the first token may take any number of characters, so the induction is on the length
  induction hn : x.length using Nat.strongRecOn generalizing x with
  | ind n ih =>
    subst hn
    cases x with
    | nil => exact ⟨[], rfl, trivial, .nil⟩
    | cons c cs =>
      obtain ⟨k, s, rest, hsource, hne, hclear, hk⟩ := written_run (hx c List.mem_cons_self) cs
      rw [hsource] at hx ih ⊢
      have hlength : rest.length < (s ++ rest).length := by
        have := List.length_pos_of_ne_nil hne
        rw [List.length_append]
        omega
      obtain ⟨ls, rfl, hls, hrun⟩ :=
        ih rest.length hlength (fun d hd => hx d (List.mem_append_right s hd)) rfl
      refine ⟨⟨[], s, k⟩ :: ls, by simp, ⟨by simpa using hclear, hls⟩, ?_⟩
      rcases hk with ⟨rfl, hd⟩ | ⟨rfl, rfl⟩ | ⟨rfl, hw, hr⟩
      · exact .number hd hrun
      · exact .point hrun
      · exact .word hw (hrun.word?_head hr) hrun

/-- The numbers and points in front of the first word are the digits and points that lead the
run. -/
theorem IsRun.exists_append {ls : List Lexeme} (h : IsRun ls) : ∃ as bs, ls = as ++ bs ∧
    (∀ l ∈ as, l.gap = [] ∧ (l.token.isNumber = true ∨ l.token = .punct '.')) ∧ IsRun bs ∧
    (∀ l ∈ bs.head?, l.token.word? ≠ none) ∧
    source as = (source ls).takeWhile Text.isNumeric ∧
    source bs = (source ls).dropWhile Text.isNumeric := by
  have hstep : ∀ {l : Lexeme} {ls : List Lexeme}, l.gap = [] →
      (∀ c ∈ l.text, Text.isNumeric c = true) →
      (source (l :: ls)).takeWhile Text.isNumeric =
        l.text ++ (source ls).takeWhile Text.isNumeric ∧
      (source (l :: ls)).dropWhile Text.isNumeric = (source ls).dropWhile Text.isNumeric := by
    intro l ls hg hl
    rw [source_cons, hg, List.nil_append, List.takeWhile_append_of_pos hl,
      List.dropWhile_append_of_pos hl]
    exact ⟨rfl, rfl⟩
  induction h with
  | nil => exact ⟨[], [], rfl, by simp, .nil, by simp, rfl, rfl⟩
  | @number ds ls hd h ih =>
    obtain ⟨as, bs, hls, has, hbs, hword, htake, hdrop⟩ := ih
    obtain ⟨ht, hd⟩ := @hstep ⟨[], ds, .number ds⟩ ls rfl hd
    refine ⟨⟨[], ds, .number ds⟩ :: as, bs, by rw [hls, List.cons_append],
      List.forall_mem_cons.2 ⟨⟨rfl, .inl rfl⟩, has⟩, hbs, hword, ?_, hdrop.trans hd.symm⟩
    rw [ht, ← htake, source_cons, List.nil_append]
  | @point ls h ih =>
    obtain ⟨as, bs, hls, has, hbs, hword, htake, hdrop⟩ := ih
    obtain ⟨ht, hd⟩ := @hstep ⟨[], ['.'], .punct '.'⟩ ls rfl (List.forall_mem_singleton.2 rfl)
    refine ⟨⟨[], ['.'], .punct '.'⟩ :: as, bs, by rw [hls, List.cons_append],
      List.forall_mem_cons.2 ⟨⟨rfl, .inr rfl⟩, has⟩, hbs, hword, ?_, hdrop.trans hd.symm⟩
    rw [ht, ← htake, source_cons, List.nil_append]
  | @word w ls hw hn h =>
    refine ⟨[], ⟨[], w, .word w⟩ :: ls, rfl, by simp, .word hw hn h, by simp [Token.word?], ?_, ?_⟩
    all_goals
      obtain ⟨c, cs, rfl, hc, -⟩ := hw.exists_cons
      simp [Text.isNumeric_of_isWordStart hc]

end Lexeme

end TableDialects
