import TableDialects.Proofs.Token.Reading

/-!
# Sources of lexemes

Lexemes that stand clear of each other are read back from their source.
-/
namespace TableDialects.Lexeme

/-- Whether a token begins here, and neither a separator nor a comment does. -/
def startsToken : Text → Bool
  | [] => false
  | c :: cs => !isSeparator c && !(c == '-' && cs.head? == some '-') &&
      !(c == '/' && cs.head? == some '*')

/-- The lexeme is read as it stands when `r` follows it. -/
structure ClearOf (l : Lexeme) (r : Text) : Prop where
  gap : ∀ c ∈ l.gap, isSeparator c = true
  starts : startsToken (l.text ++ r) = true
  written : Token.Written r l.token l.text

/-- Each lexeme is clear of those after it, and the last one of `r`. -/
def Clear : List Lexeme → Text → Prop
  | [], _ => True
  | l :: ls, r => l.ClearOf (source ls ++ r) ∧ Clear ls r

@[simp] theorem source_nil : source [] = [] := rfl

@[simp] theorem source_cons (l : Lexeme) (ls : List Lexeme) :
    source (l :: ls) = l.gap ++ (l.text ++ source ls) := by
  simp [source]

@[simp] theorem source_append (as bs : List Lexeme) :
    source (as ++ bs) = source as ++ source bs := by
  simp [source]

theorem gapLength_of_startsToken {t : Text} (h : startsToken t = true) : gapLength t = 0 := by
  cases t with
  | nil => simp [startsToken] at h
  | cons c cs =>
    simp only [startsToken, Bool.and_eq_true, Bool.not_eq_true'] at h
    obtain ⟨⟨hs, hline⟩, hblock⟩ := h
    have : skipLength (c :: cs) = 0 := by
      unfold skipLength
      split
      · next heq => cases heq; simp at hline
      · next heq => cases heq; simp at hblock
      · next heq => cases heq; simp [hs]
      · rfl
    rw [gapLength, this]

theorem gapLength_cons {c : Char} (hc : isSeparator c = true) (t : Text) :
    gapLength (c :: t) = gapLength t + 1 := by
  have : skipLength (c :: t) = 1 := by
    simp only [isSeparator, Bool.or_eq_true, beq_iff_eq] at hc
    rcases hc with ((rfl | rfl) | rfl) | rfl <;> rfl
  rw [gapLength, this]
  simp [Nat.add_comm]

private theorem gapLength_append {g : Text} (hg : ∀ c ∈ g, isSeparator c = true) (t : Text) :
    gapLength (g ++ t) = g.length + gapLength t := by
  induction g with
  | nil => simp
  | cons c g ih =>
    rw [List.cons_append, gapLength_cons (hg c List.mem_cons_self),
      ih fun d hd => hg d (List.mem_cons_of_mem c hd), List.length_cons]
    omega

private theorem gapLength_of_separators {g : Text} (hg : ∀ c ∈ g, isSeparator c = true) :
    gapLength g = g.length := by
  simpa [gapLength] using gapLength_append hg []

theorem lex_of_drop_nil {t : Text} (h : t.drop (gapLength t) = []) : lex t = ([], t) := by
  rw [lex]
  split
  · rfl
  · next heq => simp [h] at heq

theorem lex_of_drop_cons {t : Text} {c : Char} {cs : Text}
    (h : t.drop (gapLength t) = c :: cs) :
    lex t = (⟨t.take (gapLength t), (Token.read c cs).text, (Token.read c cs).token⟩ ::
      (lex (Token.read c cs).rest).1, (lex (Token.read c cs).rest).2) := by
  rw [lex]
  split
  · next heq => simp [h] at heq
  · next heq =>
    rw [h, List.cons.injEq] at heq
    obtain ⟨rfl, rfl⟩ := heq
    rfl

theorem eq_nil_of_lex {t : Text} (h : lex t = ([], [])) : t = [] := by
  cases hdrop : t.drop (gapLength t) with
  | nil => simpa [lex_of_drop_nil hdrop] using h
  | cons c cs => simp [lex_of_drop_cons hdrop] at h

/-- The lexer finds a clear lexeme first. -/
theorem ClearOf.lex {l : Lexeme} {r : Text} (h : l.ClearOf r) :
    Lexeme.lex (l.gap ++ (l.text ++ r)) = (l :: (Lexeme.lex r).1, (Lexeme.lex r).2) := by
  obtain ⟨c, cs, ht, hread⟩ := h.written.read
  have hn : gapLength (l.gap ++ (l.text ++ r)) = l.gap.length := by
    rw [gapLength_append h.gap, gapLength_of_startsToken h.starts, Nat.add_zero]
  have hd :
      (l.gap ++ (l.text ++ r)).drop (gapLength (l.gap ++ (l.text ++ r))) = c :: (cs ++ r) := by
    rw [hn, List.drop_left, ht, List.cons_append]
  rw [lex_of_drop_cons hd, hread, hn]
  simp

theorem lex_source {ls : List Lexeme} {r : Text} (h : Clear ls r)
    (hr : ∀ c ∈ r, isSeparator c = true) : lex (source ls ++ r) = (ls, r) := by
  induction ls with
  | nil =>
    have : r.drop (gapLength r) = [] := by simp [gapLength_of_separators hr]
    simpa using lex_of_drop_nil this
  | cons l ls ih =>
    have := h.1.lex
    rw [ih h.2] at this
    simpa using this

theorem tokenize_source {ls : List Lexeme} (h : Clear ls []) : tokenize (source ls) = ls := by
  have := lex_source h (by simp)
  rw [List.append_nil] at this
  simp [tokenize, this]

/-- Without the gap in front of the first, the lexemes are read back as well. -/
theorem lex_sourceFromToken {l : Lexeme} {ls : List Lexeme} (h : Clear (l :: ls) []) :
    lex (sourceFromToken (l :: ls)) = ({ l with gap := [] } :: ls, []) := by
  have hclear : Clear ({ l with gap := [] } :: ls) [] :=
    ⟨⟨List.forall_mem_nil _, h.1.starts, h.1.written⟩, h.2⟩
  have := lex_source hclear (by simp)
  simpa [sourceFromToken] using this

theorem tokens_sourceFromToken {ls : List Lexeme} (h : Clear ls []) :
    (tokenize (sourceFromToken ls)).map (·.token) = ls.map (·.token) := by
  cases ls with
  | nil => rw [sourceFromToken, tokenize, lex_of_drop_nil List.drop_nil]
  | cons l ls => rw [tokenize, lex_sourceFromToken h, List.map_cons, List.map_cons]

theorem clear_append {as bs : List Lexeme} {r : Text} :
    Clear (as ++ bs) r ↔ Clear as (source bs ++ r) ∧ Clear bs r := by
  induction as with
  | nil => simp [Clear]
  | cons a as ih => simp [Clear, ih, and_assoc]

private theorem startsToken_congr {u r r' : Text} (hu : u ≠ []) (h : startsToken (u ++ r) = true)
    (hr : Token.breaks r' = true) : startsToken (u ++ r') = true := by
  obtain ⟨c, u, rfl⟩ := List.exists_cons_of_ne_nil hu
  simp only [startsToken, List.cons_append, Bool.and_eq_true, Bool.not_eq_true',
    Bool.and_eq_false_imp, beq_eq_false_iff_ne] at h ⊢
  exact ⟨⟨h.1.1, fun hc => Token.head?_append_ne (by decide) (h.1.2 hc) hr⟩,
    fun hc => Token.head?_append_ne (by decide) (h.2 hc) hr⟩

theorem ClearOf.congr {l : Lexeme} {u r r' : Text} (h : l.ClearOf (u ++ r))
    (hr : Token.breaks r' = true) : l.ClearOf (u ++ r') := by
  refine ⟨h.gap, ?_, h.written.congr hr⟩
  obtain ⟨c, cs, ht, -⟩ := h.written.read
  have hs := h.starts
  rw [← List.append_assoc] at hs ⊢
  exact startsToken_congr (by simp [ht]) hs hr

/-- What follows clear lexemes may be replaced by what ends every token. -/
theorem Clear.congr {ls : List Lexeme} {r r' : Text} (h : Clear ls r)
    (hr : Token.breaks r' = true) : Clear ls r' := by
  induction ls with
  | nil => trivial
  | cons l ls ih => exact ⟨h.1.congr hr, ih h.2⟩

end TableDialects.Lexeme
