import TableDialects.Statement
import TableDialects.Proofs.Text.Infix
import TableDialects.Proofs.Token.Spelling

/-!
# Scanning statements

Statements are split line by line. Seen from inside a line the splitter is a scanner that takes
one piece of text after the other, and a line feed is a piece like any other.
-/
namespace TableDialects.Statement

/-- The text up to the first line feed. -/
def firstLine (t : Text) : Text := t.takeWhile (· != '\n')

/-- The text after the first line feed. -/
def afterLine (t : Text) : Text := (t.dropWhile (· != '\n')).tail

/-- The lines of a text in which only line feeds break lines. -/
def linesOf (t : Text) : List Text :=
  let ls := Text.pieces (· == '\n') t
  if ls.getLast? = some [] then ls.dropLast else ls

section
variable {w : Text}

theorem firstLine_append (hw : '\n' ∉ w) (t : Text) : firstLine (w ++ t) = w ++ firstLine t := by
  refine List.takeWhile_append_of_pos fun c hc => ?_
  have : c ≠ '\n' := by rintro rfl; exact hw hc
  simpa using this

theorem afterLine_append (hw : '\n' ∉ w) (t : Text) : afterLine (w ++ t) = afterLine t := by
  rw [afterLine, List.dropWhile_append_of_pos, afterLine]
  intro c hc
  have : c ≠ '\n' := by rintro rfl; exact hw hc
  simpa using this

theorem firstLine_cons_of_ne {c : Char} (hc : c ≠ '\n') (t : Text) :
    firstLine (c :: t) = c :: firstLine t :=
  firstLine_append (w := [c]) (by simpa using Ne.symm hc) t

theorem firstLine_of_not_mem (hw : '\n' ∉ w) : firstLine w = w := by
  have := firstLine_append hw []
  rwa [List.append_nil, show firstLine [] = [] from rfl, List.append_nil] at this

theorem afterLine_of_not_mem (hw : '\n' ∉ w) : afterLine w = [] := by
  have := afterLine_append hw []
  rwa [List.append_nil] at this

end

@[simp] theorem firstLine_newline (t : Text) : firstLine ('\n' :: t) = [] := by
  simp [firstLine]

@[simp] theorem afterLine_newline (t : Text) : afterLine ('\n' :: t) = t := by
  simp [afterLine]

theorem not_mem_firstLine (t : Text) : '\n' ∉ firstLine t := by
  intro hm
  simpa using List.all_eq_true.1 List.all_takeWhile '\n' hm

/-- A text is one line, or a line and what follows its line feed. -/
theorem eq_firstLine (t : Text) :
    t = firstLine t ∨ t = firstLine t ++ '\n' :: afterLine t := by
  have h : firstLine t ++ t.dropWhile (· != '\n') = t := List.takeWhile_append_dropWhile
  cases hd : t.dropWhile (· != '\n') with
  | nil =>
    left
    rw [hd, List.append_nil] at h
    exact h.symm
  | cons c u =>
    right
    have hc : (c != '\n') = false := by
      have := List.head_dropWhile_not (p := (· != '\n')) (l := t) (by simp [hd])
      simpa [hd] using this
    obtain rfl : c = '\n' := by simpa using hc
    rw [afterLine, hd]
    rw [hd] at h
    exact h.symm

theorem drop_firstLine (t : Text) :
    t.drop (firstLine t).length = [] ∧ afterLine t = [] ∨
      t.drop (firstLine t).length = '\n' :: afterLine t := by
  rcases eq_firstLine t with h | h
  · left
    refine ⟨by rw [← h]; simp, ?_⟩
    rw [h]
    exact afterLine_of_not_mem (not_mem_firstLine t)
  · right
    conv_lhs => rw [h]
    rw [firstLine_append (not_mem_firstLine t), firstLine_newline, List.append_nil,
      List.drop_left]

theorem afterLine_suffix (t : Text) : afterLine t <:+ t :=
  (List.tail_suffix _).trans (List.dropWhile_suffix _)

theorem linesOf_nil : linesOf [] = [] := rfl

theorem linesOf_of_ne_nil {t : Text} (ht : t ≠ []) :
    linesOf t = firstLine t :: linesOf (afterLine t) := by
  have hline : ∀ c ∈ firstLine t, (c == '\n') = false := by
    intro c hc
    have : c ≠ '\n' := by rintro rfl; exact not_mem_firstLine t hc
    simpa using this
  rcases eq_firstLine t with h | h
  · have hu : afterLine t = [] := by
      rw [h]
      exact afterLine_of_not_mem (not_mem_firstLine t)
    have hl : firstLine t ≠ [] := h ▸ ht
    rw [hu, linesOf_nil, linesOf]
    conv_lhs => rw [h]
    simp [Text.pieces_of_forall hline, hl]
  · have hp : Text.pieces (· == '\n') t = firstLine t :: Text.pieces (· == '\n') (afterLine t) := by
      conv_lhs => rw [h]
      rw [Text.pieces_append_cons (by simp), Text.pieces_of_forall hline]
      rfl
    have hne := @Text.pieces_ne_nil (· == '\n') (afterLine t)
    simp only [linesOf, hp, List.getLast?_cons_of_ne_nil hne, List.dropLast_cons_of_ne_nil hne]
    split <;> rfl

theorem lineFeeds_of_not_mem {t : Text} (h : '\r' ∉ t) : lineFeeds t = t := by
  fun_induction lineFeeds t with
  | case1 => rfl
  | case2 => simp at h
  | case3 => simp at h
  | case4 c cs _ _ ih => rw [ih fun hc => h (List.mem_cons_of_mem c hc)]

theorem closed_of_blank {term t : Text} (h : Text.blank t = true) : closed term t = [] := by
  simp [closed, h]

theorem closed_blank_append (term t : Text) {b : Text} (hb : Text.blank b = true) :
    closed term (b ++ t) = closed term t := by
  simp [closed, Text.blank_append, hb, Text.trim_blank_append hb]

theorem closed_append_blank (term t : Text) {b : Text} (hb : Text.blank b = true) :
    closed term (t ++ b) = closed term t := by
  simp [closed, Text.blank_append, hb, Text.trim_append_blank hb]

private theorem extended_blank_append (P rest : Text) (quote : Option Char) {b : Text}
    (hb : Text.blank b = true) :
    extended (b ++ P) rest quote = b ++ extended P rest quote := by
  simp only [extended, Text.blank_append, hb, Bool.true_and]
  split <;> simp

/-- Blanks in front of the open statement do not count. -/
private theorem ofLines_blank_append (term P : Text) (quote : Option Char) (ls : List Text)
    {b : Text} (hb : Text.blank b = true) :
    ofLines term (b ++ P) quote ls = ofLines term P quote ls := by
  induction ls generalizing P quote with
  | nil => simp only [ofLines, closed_blank_append [] P hb]
  | cons line ls ih =>
    have hp : (if Text.blank (b ++ P) then b ++ P else b ++ (P ++ ['\n'])) =
        b ++ if Text.blank P then P else P ++ ['\n'] := by
      rw [Text.blank_append, hb, Bool.true_and]
      split <;> rfl
    simp only [ofLines, List.append_assoc, hp, ih, extended_blank_append P _ _ hb,
      closed_blank_append term _ hb]

theorem ofLines_of_blank (term : Text) (quote : Option Char) (ls : List Text) {P : Text}
    (hP : Text.blank P = true) : ofLines term P quote ls = ofLines term [] quote ls := by
  have := ofLines_blank_append term [] quote ls hP
  rwa [List.append_nil] at this

/-- The statements from inside a line on, `P` being the text of the open statement. -/
def resume (term P : Text) (quote : Option Char) (t : Text) : List Statement :=
  let k := cut term quote (firstLine t)
  match k.closed with
  | [] => ofLines term (extended P k.rest k.quote) k.quote (linesOf (afterLine t))
  | p :: ps =>
    closed term (P ++ p) ++ ps.flatMap (closed term) ++
      ofLines term (extended [] k.rest k.quote) k.quote (linesOf (afterLine t))

/-- A line that is neither blank nor a comment nor a directive. -/
structure Ordinary (line : Text) : Prop where
  not_blank : Text.blank line = false
  not_comment : ("--".toList).isPrefixOf (Text.trim line) = false
  not_directive : directive? line = none

/-- A line is a comment when it begins with two dashes after its blanks. -/
theorem isPrefixOf_trim {b w : Text} {c : Char} (hb : Text.blank b = true)
    (hc : Text.isBlank c = false) :
    ("--".toList).isPrefixOf (Text.trim (b ++ c :: w)) = true ↔ c = '-' ∧ w.head? = some '-' := by
  rw [Text.trim_blank_append hb, Text.trim, Text.trimStart_cons hc, Text.trimEnd_cons hc,
    ← Text.head?_trimEnd (by decide) w]
  cases Text.trimEnd w with
  | nil => simp
  | cons d u => simp [@eq_comm _ '-' c, @eq_comm _ '-' d]

theorem ordinary {b w : Text} {c : Char} (hb : Text.blank b = true) (hc : Text.isBlank c = false)
    (hd : ¬ (c = '-' ∧ w.head? = some '-')) (hn : directive? (b ++ c :: w) = none) :
    Ordinary (b ++ c :: w) where
  not_blank := by simp [Text.blank, hc]
  not_comment := by
    by_contra h
    rw [Bool.not_eq_false, isPrefixOf_trim hb hc] at h
    exact hd h
  not_directive := hn

section
variable {term P t w : Text} {quote : Option Char}

theorem ofLines_ordinary (ht : t ≠ []) (h : Ordinary (firstLine t)) :
    ofLines term P none (linesOf t) = resume term P none t := by
  rw [linesOf_of_ne_nil ht, ofLines, h.not_comment, h.not_blank, h.not_directive]
  rfl

/-- Blanks before the end of a script are no line of their own. -/
theorem ofLines_last_blank (hw : '\n' ∉ w) (hb : Text.blank w = true) :
    ofLines term P none (linesOf w) = closed [] P := by
  by_cases hne : w = []
  · rw [hne, linesOf_nil, ofLines]
  · rw [linesOf_of_ne_nil hne, firstLine_of_not_mem hw, afterLine_of_not_mem hw, linesOf_nil,
      ofLines, ofLines, Text.trim_of_blank hb, hb]
    simp only [Option.isNone_none, Bool.and_self, if_true]
    split
    · rfl
    · split
      · rfl
      · exact closed_append_blank [] P (by decide)

theorem ofLines_blank_line (hw : '\n' ∉ w) (hb : Text.blank w = true) :
    ofLines term P none (linesOf (w ++ '\n' :: t)) =
      ofLines term (if Text.blank P then P else P ++ ['\n']) none (linesOf t) := by
  rw [linesOf_of_ne_nil (by simp), firstLine_append hw, afterLine_append hw, firstLine_newline,
    afterLine_newline, List.append_nil, ofLines, Text.trim_of_blank hb, hb]
  rfl

/-- A line that holds nothing but a comment is left out. -/
theorem ofLines_comment_line (hw : '\n' ∉ w) (hb : Text.blank w = true) :
    ofLines term P none (linesOf (w ++ '-' :: '-' :: t)) =
      ofLines term P none (linesOf (afterLine t)) := by
  have hd : '\n' ∉ w ++ ['-', '-'] := by simp [hw]
  have hc : ("--".toList).isPrefixOf (Text.trim (w ++ '-' :: '-' :: firstLine t)) = true :=
    (isPrefixOf_trim hb (by decide)).2 ⟨rfl, rfl⟩
  have happ : w ++ '-' :: '-' :: t = w ++ ['-', '-'] ++ t := by simp
  rw [linesOf_of_ne_nil (by simp), happ, firstLine_append hd, afterLine_append hd, ofLines,
    List.append_assoc, List.cons_append, List.singleton_append, hc]
  rfl

theorem cut_nil : cut term quote [] = ⟨[], [], quote⟩ := by
  rw [cut]

theorem resume_newline :
    resume term P quote ('\n' :: t) =
      ofLines term (extended P [] quote) quote (linesOf t) := by
  simp [resume, cut_nil]

theorem resume_nil : resume term P none [] = closed [] P := by
  simp only [resume, show firstLine [] = [] from rfl, cut_nil, show afterLine [] = [] from rfl,
    linesOf_nil, ofLines, extended]
  split
  · rfl
  · rw [List.append_nil]
    exact closed_append_blank [] P (by decide)

theorem resume_of_blank (t : Text) (hP : Text.blank P = true) :
    resume term P quote t = resume term [] quote t := by
  have hrest : ∀ rest q, extended P rest q = P ++ extended [] rest q := by
    intro rest q
    have := extended_blank_append [] rest q hP
    rwa [List.append_nil] at this
  simp only [resume, hrest, ofLines_blank_append term _ _ _ hP, closed_blank_append term _ hP,
    List.nil_append]

/-- A line that begins inside a literal has no other meaning. -/
private theorem ofLines_literal (q : Char) :
    ofLines term P (some q) (linesOf t) = resume term P (some q) t := by
  by_cases ht : t = []
  · subst ht
    simp only [resume, show firstLine [] = [] from rfl, cut_nil, show afterLine [] = [] from rfl,
      linesOf_nil, ofLines, extended, Option.isNone_some, Bool.and_false, Bool.false_eq_true,
      if_false, List.append_nil]
    exact (closed_append_blank [] P (by decide)).symm
  · rw [linesOf_of_ne_nil ht, ofLines]
    rfl

/-- What the scanner adds to every piece of the line may as well be in the open statement. -/
private theorem resume_prepend {quote' : Option Char} (hw : '\n' ∉ w)
    (h : cut term quote (w ++ firstLine t) = (cut term quote' (firstLine t)).prepend w) :
    resume term P quote (w ++ t) = resume term (P ++ w) quote' t := by
  simp only [resume, firstLine_append hw, afterLine_append hw, h]
  cases hk : cut term quote' (firstLine t) with
  | mk closed rest q =>
    cases closed with
    | nil =>
      simp only [Cut.prepend, extended, Text.blank_append]
      by_cases hb : Text.blank w = true ∧ Text.blank rest = true ∧ Text.blank P = true ∧
          q.isNone = true
      · obtain ⟨hw, hr, hP, hq⟩ := hb
        have hPw : Text.blank (P ++ w) = true := by rw [Text.blank_append, hP, hw]; rfl
        simp only [hw, hr, hP, hq, Bool.and_self, if_true]
        rw [ofLines_of_blank term q _ hP, ofLines_of_blank term q _ hPw]
      · have hc : (Text.blank w && Text.blank rest && Text.blank P && q.isNone) = false := by
          simpa [← Bool.not_eq_true, and_assoc] using hb
        have hc' : (Text.blank rest && (Text.blank P && Text.blank w) && q.isNone) = false := by
          rw [← hc]
          cases Text.blank w <;> cases Text.blank rest <;> cases Text.blank P <;> rfl
        simp [hc, hc']
    | cons p ps => simp [Cut.prepend]

end

section
variable {term P line : Text} {ls : List Text}

/-- A line in which the splitter finds neither a quote nor a comment nor the terminator. -/
structure Uncut (term line : Text) : Prop where
  quotes : ∀ c ∈ line, Token.isQuote c = false
  dashes : ¬"--".toList <:+: line
  terminator : ¬term <:+: line
  directive : directive? line = none

theorem not_comment_of_not_infix (hd : ¬"--".toList <:+: line) :
    ("--".toList).isPrefixOf (Text.trim line) = false := by
  by_contra hp
  rw [Bool.not_eq_false, List.isPrefixOf_iff_prefix] at hp
  exact hd (hp.isInfix.trans (Text.infix_trim line))

private theorem cut_of_not_infix (hq : ∀ c ∈ line, Token.isQuote c = false)
    (hd : ¬['-', '-'] <:+: line) (ht : ¬term <:+: line) :
    cut term none line = ⟨[], line, none⟩ := by
  induction line with
  | nil => exact cut_nil
  | cons c line ih =>
    rw [Text.pair_infix_cons, not_or] at hd
    rw [List.infix_cons_iff, not_or, ← List.isPrefixOf_iff_prefix] at ht
    have hrest := ih (fun d hm => hq d (List.mem_cons_of_mem c hm)) hd.2 ht.2
    rw [cut, hq c List.mem_cons_self, if_neg Bool.false_ne_true, if_neg hd.1, if_neg ht.1, hrest]
    rfl

/-- What a line adds to the open statement. Of a blank line only the break stays. -/
def kept (line : Text) : Text := if Text.blank line then ['\n'] else line ++ ['\n']

/-- The open statement takes a line up as it is. A blank line in front of the statement may as well
be kept. -/
theorem Uncut.ofLines (h : Uncut term line) :
    ofLines term P none (line :: ls) = ofLines term (P ++ kept line) none ls := by
  rw [Statement.ofLines, not_comment_of_not_infix h.dashes]
  by_cases hb : Text.blank line = true
  · have hkept : kept line = ['\n'] := if_pos hb
    by_cases hP : Text.blank P = true
    · have hall : Text.blank (P ++ ['\n']) = true := by rw [Text.blank_append, hP]; rfl
      rw [hkept, ofLines_of_blank _ _ _ hall, ← ofLines_of_blank _ _ _ hP]
      simp [hb, hP]
    · simp [hkept, hb, hP]
  · have hkept : kept line = line ++ ['\n'] := if_neg hb
    rw [hkept, h.directive, cut_of_not_infix h.quotes h.dashes h.terminator]
    simp [hb, extended]

theorem ofLines_uncut {rest : List Text} (h : ∀ l ∈ ls, Uncut term l) :
    ofLines term P none (ls ++ rest) = ofLines term (P ++ ls.flatMap kept) none rest := by
  induction ls generalizing P with
  | nil => simp
  | cons line ls ih =>
    rw [List.cons_append, (h line List.mem_cons_self).ofLines,
      ih fun l hl => h l (List.mem_cons_of_mem line hl), List.flatMap_cons, List.append_assoc]

end

section
variable {P t : Text} {c q : Char}

/-- The terminator that no directive has changed. -/
abbrev semicolon : Text := [';']

theorem split_eq (script : Text) :
    split script = resume semicolon [] none ('\n' :: lineFeeds script) := by
  rw [resume_newline]
  rfl

/-- A terminator closes the open statement. -/
theorem resume_semicolon :
    resume semicolon P none (';' :: t) = closed semicolon P ++ resume semicolon [] none t := by
  have hf : firstLine (';' :: t) = ';' :: firstLine t := firstLine_cons_of_ne (by decide) t
  have ha : afterLine (';' :: t) = afterLine t := afterLine_append (w := [';']) (by simp) t
  have hc : cut semicolon none (';' :: firstLine t) =
      { cut semicolon none (firstLine t) with
        closed := [] :: (cut semicolon none (firstLine t)).closed } := by
    rw [cut]
    simp [Token.isQuote]
  simp only [resume, hf, ha, hc, List.append_nil]
  split
  · next h => simp [h]
  · next p ps h => simp [h]

/-- A character that means nothing to the scanner. -/
def passes (c : Char) : Bool := !Token.isQuote c && c != ';' && c != '\n'

theorem head?_firstLine (h : t.head? ≠ some c) : (firstLine t).head? ≠ some c := by
  cases t with
  | nil => exact h
  | cons d t =>
    by_cases hd : d = '\n'
    · simp [hd]
    · simpa [firstLine, hd] using h

theorem resume_char (hc : passes c = true) (ht : c = '-' → t.head? ≠ some '-') :
    resume semicolon P none (c :: t) = resume semicolon (P ++ [c]) none t := by
  simp only [passes, Bool.and_eq_true, Bool.not_eq_true', bne_iff_ne] at hc
  obtain ⟨⟨hq, hs⟩, hn⟩ := hc
  refine resume_prepend (w := [c]) (by simpa using hn.symm) ?_
  rw [List.singleton_append, cut, hq, if_neg Bool.false_ne_true,
    if_neg fun h => head?_firstLine (ht h.1) h.2]
  simp [Ne.symm hs]

private theorem resume_open (hq : Token.isQuote q = true) :
    resume semicolon P none (q :: t) = resume semicolon (P ++ [q]) (some q) t := by
  have hn : q ≠ '\n' := by rintro rfl; exact absurd hq (by decide)
  refine resume_prepend (w := [q]) (by simpa using hn.symm) ?_
  rw [List.singleton_append, cut, if_pos hq]

private theorem resume_close (hq : Token.isQuote q = true) :
    resume semicolon P (some q) (q :: t) = resume semicolon (P ++ [q]) none t := by
  have hn : q ≠ '\n' := by rintro rfl; exact absurd hq (by decide)
  refine resume_prepend (w := [q]) (by simpa using hn.symm) ?_
  rw [List.singleton_append, cut, Token.escapes_self hq]
  simp

/-- A line feed inside a literal belongs to it. -/
private theorem resume_newline_inside :
    resume semicolon P (some q) ('\n' :: t) = resume semicolon (P ++ ['\n']) (some q) t := by
  rw [resume_newline, ofLines_literal]
  simp [extended]

private theorem resume_inside (he : Token.escapes q c = false) (hc : c ≠ q) :
    resume semicolon P (some q) (c :: t) = resume semicolon (P ++ [c]) (some q) t := by
  by_cases hn : c = '\n'
  · exact hn ▸ resume_newline_inside
  · refine resume_prepend (w := [c]) (by simpa using Ne.symm hn) ?_
    rw [List.singleton_append, cut, he]
    simp [hc]

/-- The character after a backslash belongs to the literal, be it a line feed. -/
private theorem resume_escape {d : Char} (he : Token.escapes q c = true) :
    resume semicolon P (some q) (c :: d :: t) = resume semicolon (P ++ [c, d]) (some q) t := by
  have hc : c ≠ '\n' := by
    rintro rfl
    simp [Token.escapes] at he
  by_cases hd : d = '\n'
  · subst hd
    have hw : resume semicolon P (some q) ([c] ++ '\n' :: t) =
        resume semicolon (P ++ [c]) (some q) ('\n' :: t) := by
      refine resume_prepend (by simpa using hc.symm) ?_
      simp [cut, he]
    rw [List.singleton_append] at hw
    rw [hw, resume_newline_inside, List.append_assoc]
    rfl
  · refine resume_prepend (w := [c, d]) (by simp [Ne.symm hd, hc.symm]) ?_
    rw [List.cons_append, List.singleton_append, cut, if_pos he]
    rfl

private theorem resume_quotes {v s : Text} (hq : Token.isQuote q = true) (h : Token.Quotes q v s) :
    resume semicolon P (some q) (s ++ t) = resume semicolon (P ++ s) none t := by
  induction h generalizing P with
  | close => exact resume_close hq
  | escape c d he _ ih => simp [resume_escape he, ih]
  | @twice v s _ ih =>
    -- the scanner leaves the literal at the first quote and enters it again at the second
    rw [List.cons_append, resume_close hq, List.cons_append, resume_open hq, ih]
    simp
  | plain c he hc _ ih => simp [resume_inside he hc, ih]

end

/-- The scanner takes `u` as it is when `r` follows it. -/
def Passes (u r : Text) : Prop :=
  ∀ P, resume semicolon P none (u ++ r) = resume semicolon (P ++ u) none r

section
variable {u v r : Text}

theorem passes_nil : Passes [] r := fun P => by simp

theorem Passes.append (hu : Passes u (v ++ r)) (hv : Passes v r) : Passes (u ++ v) r := by
  intro P
  rw [List.append_assoc, hu, hv, List.append_assoc]

/-- Characters that mean nothing to the scanner pass, unless they begin a comment. -/
theorem passes_of_all (h : u.all passes = true) (hd : '-' ∉ u) : Passes u r := by
  induction u with
  | nil => exact passes_nil
  | cons c u ih =>
    rw [List.all_cons, Bool.and_eq_true] at h
    have hc : Passes [c] (u ++ r) := fun P =>
      resume_char h.1 fun he => absurd (by simp [he]) hd
    exact hc.append (ih h.2 fun hm => hd (List.mem_cons_of_mem c hm))

theorem passes_separators (h : ∀ c ∈ u, Lexeme.isSeparator c = true) (hn : '\n' ∉ u) :
    Passes u r := by
  refine passes_of_all (List.all_eq_true.2 fun c hc => ?_) fun hm => absurd (h '-' hm) (by decide)
  have hne : c ≠ '\n' := by rintro rfl; exact hn hc
  have hs := h c hc
  simp only [Lexeme.isSeparator, Bool.or_eq_true, beq_iff_eq, hne, or_false] at hs
  rcases hs with (rfl | rfl) | rfl <;> rfl

private theorem passes_literal {q : Char} (hq : Token.isQuote q = true) (h : Token.Quotes q v u) :
    Passes (q :: u) r := by
  intro P
  rw [List.cons_append, resume_open hq, resume_quotes hq h, List.append_assoc]
  rfl

end

private theorem passes_continuesWord {c : Char} (h : Token.continuesWord c = true) :
    passes c = true ∧ c ≠ '-' := by
  refine ⟨?_, by rintro rfl; exact absurd h (by decide)⟩
  by_contra hp
  simp only [passes, Token.isQuote, Bool.and_eq_true, Bool.not_eq_true', bne_iff_ne, ne_eq,
    not_and_or, Bool.not_eq_false, Bool.or_eq_true, beq_iff_eq, not_not] at hp
  rcases hp with (((rfl | rfl) | rfl) | rfl) | rfl <;> exact absurd h (by decide)

private theorem passes_of_mem {u r : Text} (h : ∀ c ∈ u, Token.continuesWord c = true ∨ c = '.') :
    Passes u r := by
  refine passes_of_all (List.all_eq_true.2 fun c hc => ?_) fun hm => ?_
  · rcases h c hc with h | rfl
    · exact (passes_continuesWord h).1
    · rfl
  · exact (h '-' hm).elim (fun h => (passes_continuesWord h).2 rfl) (by decide)

/-- The scanner takes every token as it is, apart from the semicolon. -/
theorem passes_written {r u : Text} {k : Token} (h : Token.Written r k u) (hk : k ≠ .punct ';')
    (hs : Lexeme.startsToken (u ++ r) = true) : Passes u r := by
  cases h with
  | literal hq h _ => exact passes_literal hq h
  | number _ h => exact passes_of_mem (Token.mem_numeral h)
  | word hc hcs _ => exact passes_of_mem fun d hd => .inl (Token.continuesWord_of_mem hc hcs d hd)
  | cast => exact passes_of_all (by decide) (by decide)
  | openParen => exact passes_of_all (by decide) (by decide)
  | closeParen => exact passes_of_all (by decide) (by decide)
  | comma => exact passes_of_all (by decide) (by decide)
  | @punct c hc _ =>
    simp only [Token.isOther, Bool.and_eq_true, Bool.not_eq_true'] at hc
    simp only [Lexeme.startsToken, List.singleton_append, Bool.and_eq_true, Bool.not_eq_true',
      Lexeme.isSeparator, Bool.or_eq_false_iff, beq_eq_false_iff_ne, Bool.and_eq_false_imp] at hs
    have hp : passes c = true := by
      have hsemi : c ≠ ';' := fun h => hk (by rw [h])
      simp [passes, hc.1.1.1.1.1, hsemi, hs.1.1.2]
    exact fun P => resume_char hp fun hd => hs.1.2 (by simpa using hd)

/-- Lexemes are a statement by themselves. -/
theorem closed_source {term s : Text} {l : Lexeme} {ls : List Lexeme}
    (hg : Text.blank l.gap = true) (hs : Text.blank s = true)
    (h : Text.Solid (Lexeme.sourceFromToken (l :: ls))) :
    closed term (Lexeme.source (l :: ls) ++ s) = [⟨Lexeme.sourceFromToken (l :: ls), term⟩] := by
  rw [closed_append_blank _ _ hs, Lexeme.source_cons, closed_blank_append _ _ hg]
  change closed term (Lexeme.sourceFromToken (l :: ls)) = _
  rw [closed, h.blank, h.trim]
  rfl

end TableDialects.Statement
