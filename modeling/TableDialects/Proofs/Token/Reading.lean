import TableDialects.Token.Lexer
import Mathlib.Data.List.Basic

/-!
# Tokens before other text

A token is read in the same way whatever follows it, as long as what follows does not join it.
Literals, words and numbers are read back from the way they are written.
-/
namespace TableDialects

namespace Text

theorem takeWhile_append_eq_left {p : Char → Bool} {a b : Text} :
    (a ++ b).takeWhile p = a ↔ (∀ c ∈ a, p c = true) ∧ b.takeWhile p = [] := by
  induction a with
  | nil => simp
  | cons c a ih => by_cases hc : p c <;> simp [hc, ih]

/-- Of two runs at the start of one text, both up to where `p` stops, one is the other. -/
theorem run_unique {p : Char → Bool} {a b r s : Text} (ha : ∀ c ∈ a, p c = true)
    (hr : r.takeWhile p = []) (hb : ∀ c ∈ b, p c = true) (hs : s.takeWhile p = [])
    (h : a ++ r = b ++ s) : a = b := by
  rw [← takeWhile_append_eq_left.2 ⟨ha, hr⟩, h, takeWhile_append_eq_left.2 ⟨hb, hs⟩]

private theorem dropWhile_append_eq_right {p : Char → Bool} {a b : Text} (ha : ∀ c ∈ a, p c = true)
    (hb : b.takeWhile p = []) : (a ++ b).dropWhile p = b := by
  induction a with
  | nil =>
    cases b with
    | nil => rfl
    | cons c b =>
      by_cases hc : p c
      · simp [hc] at hb
      · simp [hc]
  | cons c a ih =>
    simpa [ha c List.mem_cons_self] using ih fun d hd => ha d (List.mem_cons_of_mem c hd)

theorem exists_span (p : Char → Bool) (t : Text) :
    ∃ a b, t = a ++ b ∧ (∀ c ∈ a, p c = true) ∧ b.takeWhile p = [] := by
  induction t with
  | nil => exact ⟨[], [], rfl, by simp, rfl⟩
  | cons c t ih =>
    by_cases hc : p c = true
    · obtain ⟨a, b, rfl, ha, hb⟩ := ih
      exact ⟨c :: a, b, rfl, by simpa using ⟨hc, ha⟩, hb⟩
    · exact ⟨[], c :: t, rfl, by simp, by simp [hc]⟩

theorem takeWhile_eq_nil_cons {p : Char → Bool} {c : Char} {t : Text} :
    (c :: t).takeWhile p = [] ↔ p c = false := by
  by_cases hc : p c <;> simp [hc]

end Text

namespace Token

/-- What stands for a value after its opening quote, the closing quote included. -/
inductive Quotes (q : Char) : Text → Text → Prop
  | close : Quotes q [] [q]
  | escape (c d : Char) (hc : escapes q c = true) {v s : Text} (h : Quotes q v s) :
      Quotes q (d :: v) (c :: d :: s)
  | twice {v s : Text} (h : Quotes q v s) : Quotes q (q :: v) (q :: q :: s)
  | plain (c : Char) (he : escapes q c = false) (hc : c ≠ q) {v s : Text} (h : Quotes q v s) :
      Quotes q (c :: v) (c :: s)

section
variable {q : Char} {v s : Text}

theorem escapes_self (hq : isQuote q = true) : escapes q q = false := by
  have : q ≠ '\\' := by rintro rfl; exact absurd hq (by decide)
  simp [escapes, this]

private theorem Quotes.ne_nil (h : Quotes q v s) : s ≠ [] := by
  cases h <;> simp

theorem Quotes.getLast? (h : Quotes q v s) : s.getLast? = some q := by
  induction h with
  | close => rfl
  | escape c d _ _ ih => simp [List.getLast?_cons, ih]
  | twice _ ih => simp [List.getLast?_cons, ih]
  | plain c _ _ _ ih => simp [List.getLast?_cons, ih]

private theorem literal?_cons {c : Char} (he : escapes q c = false) (hc : c ≠ q) {t : Text}
    (ht : t ≠ []) :
    literal? q (c :: t) = (literal? q t).map fun p => (c :: p.1, c :: p.2.1, p.2.2) := by
  cases t with
  | nil => exact absurd rfl ht
  | cons d t => simp [literal?, he, hc]

private theorem literal?_close (hq : isQuote q = true) {r : Text} (hr : r.head? ≠ some q) :
    literal? q (q :: r) = some ([], [q], r) := by
  cases r with
  | nil => simp [literal?, escapes_self hq]
  | cons d r =>
    have hd : d ≠ q := fun h => hr (by simp [h])
    simp [literal?, escapes_self hq, hd]

/-- A literal is read whatever follows it, as long as that does not begin with the quote. -/
theorem Quotes.literal? (hq : isQuote q = true) (h : Quotes q v s) {r : Text}
    (hr : r.head? ≠ some q) : literal? q (s ++ r) = some (v, s, r) := by
  induction h with
  | close => exact literal?_close hq hr
  | escape c d hc _ ih => simp [Token.literal?, hc, ih]
  | twice _ ih => simp [Token.literal?, escapes_self hq, ih]
  | plain c he hc h ih =>
    rw [List.cons_append, literal?_cons he hc (by simp [h.ne_nil]), ih]
    rfl

theorem quotes_of_literal? {t r : Text} (h : Token.literal? q t = some (v, s, r)) :
    t = s ++ r ∧ Quotes q v s ∧ r.head? ≠ some q := by
  fun_induction Token.literal? q t generalizing v s r with
  | case1 => simp at h
  | case2 => simp at h
  | case3 =>
    cases h
    exact ⟨rfl, .close, by simp⟩
  | case4 => simp at h
  | case5 c d cs he ih =>
    obtain ⟨p, hp, hpe⟩ := Option.map_eq_some_iff.1 h
    cases hpe
    obtain ⟨rfl, hs, hr⟩ := ih hp
    exact ⟨rfl, .escape c d he hs, hr⟩
  | case6 cs he ih =>
    obtain ⟨p, hp, hpe⟩ := Option.map_eq_some_iff.1 h
    cases hpe
    obtain ⟨rfl, hs, hr⟩ := ih hp
    exact ⟨rfl, .twice hs, hr⟩
  | case7 d cs hd he =>
    cases h
    exact ⟨rfl, .close, by simpa using hd⟩
  | case8 c d cs he hc ih =>
    obtain ⟨p, hp, hpe⟩ := Option.map_eq_some_iff.1 h
    cases hpe
    obtain ⟨hcs, hs, hr⟩ := ih hp
    exact ⟨congrArg (c :: ·) hcs, .plain c (by simpa using he) hc hs, hr⟩

/-- A value between two quotes, each inner quote written twice, unless it has escapes. -/
theorem quotes_doubled (hv : q = '\x60' ∨ '\\' ∉ v) : Quotes q v (Text.doubled q v ++ [q]) := by
  induction v with
  | nil => exact .close
  | cons c v ih =>
    have ih := ih (hv.imp id fun h hm => h (List.mem_cons_of_mem c hm))
    have he : escapes q c = false := by
      rcases hv with rfl | hv
      · simp [escapes]
      · have : c ≠ '\\' := fun h => hv (by simp [h])
        simp [escapes, this]
    by_cases hc : c = q
    · subst hc
      simpa [Text.doubled] using Quotes.twice ih
    · simpa [Text.doubled, hc] using Quotes.plain c he hc ih

end

/-- Whether digits, or a point and a digit, begin the text. -/
def extendsNumber : Text → Bool
  | '.' :: c :: _ => c.isDigit
  | c :: _ => c.isDigit
  | [] => false

/-- A number that `r` does not extend: it is whole, or it has a fraction after a point. -/
inductive Numeral (r : Text) : Text → Prop
  | whole {ds : Text} (h : ∀ c ∈ ds, c.isDigit = true) (hr : extendsNumber r = false) :
      Numeral r ds
  | fraction {ds fs : Text} (hd : ∀ c ∈ ds, c.isDigit = true) (hf : ∀ c ∈ fs, c.isDigit = true)
      (hne : fs ≠ []) (hr : r.takeWhile Char.isDigit = []) : Numeral r (ds ++ '.' :: fs)

theorem takeWhile_isDigit_eq_nil {r : Text} (h : extendsNumber r = false) :
    r.takeWhile Char.isDigit = [] := by
  unfold extendsNumber at h
  split at h <;> simp_all

theorem extendsNumber_of_takeWhile {r : Text} (h : r.takeWhile Char.isDigit = [])
    (hr : r.head? ≠ some '.') : extendsNumber r = false := by
  unfold extendsNumber
  split
  · simp at hr
  · exact Text.takeWhile_eq_nil_cons.1 h
  · rfl

theorem extendsNumber_point {r : Text} (h : r.takeWhile Char.isDigit = []) :
    extendsNumber ('.' :: r) = false := by
  cases r with
  | nil => rfl
  | cons c r => exact Text.takeWhile_eq_nil_cons.1 h

private theorem numberLength_append {w r : Text} (hw : Numeral r w) :
    numberLength (w ++ r) = w.length := by
  cases hw with
  | whole h hr =>
    rw [numberLength, Text.takeWhile_append_eq_left.2 ⟨h, takeWhile_isDigit_eq_nil hr⟩]
    simp only [List.drop_left]
    split
    · next fs =>
      have : fs.takeWhile Char.isDigit = [] := by
        cases fs with
        | nil => rfl
        | cons c fs => exact Text.takeWhile_eq_nil_cons.2 hr
      simp [this]
    · rfl
  | @fraction ds fs hd hf hne hr =>
    have h : (ds ++ ('.' :: fs ++ r)).takeWhile Char.isDigit = ds :=
      Text.takeWhile_append_eq_left.2 ⟨hd, by simp⟩
    rw [List.append_assoc, numberLength, h]
    simp [Text.takeWhile_append_eq_left.2 ⟨hf, hr⟩, hne]
    omega

/-- A text begins with a number, be it the empty one. -/
theorem exists_numeral (t : Text) : ∃ w r, t = w ++ r ∧ Numeral r w := by
  obtain ⟨ds, b, rfl, hd, hb⟩ := Text.exists_span Char.isDigit t
  by_cases hp : b.head? = some '.'
  · obtain ⟨fs, rfl⟩ : ∃ fs, b = '.' :: fs := by
      cases b with
      | nil => simp at hp
      | cons c fs => exact ⟨fs, by simpa using hp⟩
    obtain ⟨places, r, rfl, hf, hr⟩ := Text.exists_span Char.isDigit fs
    by_cases hne : places = []
    · subst hne
      exact ⟨ds, '.' :: r, rfl, .whole hd (extendsNumber_point hr)⟩
    · exact ⟨ds ++ '.' :: places, r, by simp, .fraction hd hf hne hr⟩
  · exact ⟨ds, b, rfl, .whole hd (extendsNumber_of_takeWhile hb hp)⟩

/-- Whether a token consists of `c` alone for no other reason than that it begins nothing else. -/
def isOther (c : Char) : Bool :=
  !isQuote c && !c.isDigit && !isWordStart c && c != '(' && c != ')' && c != ','

/-- The token is written `s`, and `r` after it does not join it. -/
inductive Written (r : Text) : Token → Text → Prop
  | literal {q : Char} {v s : Text} (hq : isQuote q = true) (h : Quotes q v s)
      (hr : r.head? ≠ some q) : Written r (ofLiteral q v) (q :: s)
  | number {c : Char} {cs : Text} (hc : c.isDigit = true) (h : Numeral r (c :: cs)) :
      Written r (.number (c :: cs)) (c :: cs)
  | word {c : Char} {cs : Text} (hc : isWordStart c = true)
      (hcs : ∀ d ∈ cs, continuesWord d = true) (hr : r.takeWhile continuesWord = []) :
      Written r (.word (c :: cs)) (c :: cs)
  | cast : Written r .cast [':', ':']
  | openParen : Written r .openParen ['(']
  | closeParen : Written r .closeParen [')']
  | comma : Written r .comma [',']
  | punct {c : Char} (hc : isOther c = true) (hr : c = ':' → r.head? ≠ some ':') :
      Written r (.punct c) [c]

private theorem isAscii_of_isDigit {c : Char} (h : c.isDigit = true) : Text.isAscii c = true := by
  simp only [Char.isDigit, Bool.and_eq_true, decide_eq_true_eq, UInt32.le_iff_toNat_le] at h
  have : c.val.toNat ≤ 57 := h.2
  simp only [Text.isAscii, Char.toNat, decide_eq_true_eq]
  omega

theorem isDigit_of_isWordStart {c : Char} (h : isWordStart c = true) : c.isDigit = false := by
  by_contra hd
  have ha := isAscii_of_isDigit (Bool.not_eq_false _ ▸ hd)
  simp only [Bool.not_eq_false, Char.isDigit, Bool.and_eq_true, decide_eq_true_eq,
    UInt32.le_iff_toNat_le] at hd
  simp only [isWordStart, Text.isLetter, ha, if_true, Bool.or_eq_true, beq_iff_eq] at h
  rcases h with h | rfl
  · have hbounds : (decide (65 ≤ c.val ∧ c.val ≤ 90) ||
        decide (97 ≤ c.val) && decide (c.val ≤ 122)) = true := h
    simp only [Bool.or_eq_true, Bool.and_eq_true, decide_eq_true_eq,
      UInt32.le_iff_toNat_le] at hbounds
    have h57 : c.val.toNat ≤ 57 := hd.2
    rcases hbounds with ⟨h, -⟩ | ⟨h, -⟩
    · exact absurd (Nat.le_trans h h57) (by decide)
    · exact absurd (Nat.le_trans h h57) (by decide)
  · exact absurd hd.2 (by decide)

theorem continuesWord_of_isWordStart {c : Char} (h : isWordStart c = true) :
    continuesWord c = true := by
  simp only [isWordStart, Bool.or_eq_true] at h
  rcases h with h | h <;> simp [continuesWord, Text.isLetterOrNumber, h]

theorem continuesWord_of_isDigit {c : Char} (h : c.isDigit = true) : continuesWord c = true := by
  simp [continuesWord, Text.isLetterOrNumber, Text.isDecimal, isAscii_of_isDigit h, h]

theorem continuesWord_of_mem {c : Char} {cs : Text} (hc : isWordStart c = true)
    (hcs : ∀ d ∈ cs, continuesWord d = true) : ∀ d ∈ c :: cs, continuesWord d = true :=
  List.forall_mem_cons.2 ⟨continuesWord_of_isWordStart hc, hcs⟩

/-- The characters of a number continue a word, or are points. -/
theorem mem_numeral {r w : Text} (h : Numeral r w) :
    ∀ c ∈ w, continuesWord c = true ∨ c = '.' := by
  cases h with
  | whole h _ => exact fun c hc => .inl (continuesWord_of_isDigit (h c hc))
  | fraction hd hf _ _ =>
    intro c hc
    rcases List.mem_append.1 hc with hc | hc
    · exact .inl (continuesWord_of_isDigit (hd c hc))
    · rcases List.mem_cons.1 hc with rfl | hc
      · exact .inr rfl
      · exact .inl (continuesWord_of_isDigit (hf c hc))

theorem isQuote_of_isWordStart {c : Char} (h : isWordStart c = true) : isQuote c = false := by
  by_contra hq
  simp only [Bool.not_eq_false, isQuote, Bool.or_eq_true, beq_iff_eq] at hq
  rcases hq with (rfl | rfl) | rfl <;> exact absurd h (by decide)

private theorem isQuote_of_isDigit {c : Char} (h : c.isDigit = true) : isQuote c = false := by
  by_contra hq
  simp only [Bool.not_eq_false, isQuote, Bool.or_eq_true, beq_iff_eq] at hq
  rcases hq with (rfl | rfl) | rfl <;> exact absurd h (by decide)

theorem read_of_not_isQuote {c : Char} (h : isQuote c = false) (cs : Text) :
    read c cs = readPlain c cs := by
  simp [read, h]

/-- A token is read from its written form. -/
theorem Written.read {r s : Text} {k : Token} (h : Written r k s) :
    ∃ c cs, s = c :: cs ∧ Token.read c (cs ++ r) = ⟨k, s, r⟩ := by
  cases h with
  | @literal q v s hq h hr =>
    refine ⟨q, s, rfl, ?_⟩
    simp [Token.read, hq, h.literal? hq hr]
  | @number c cs hc h =>
    refine ⟨c, cs, rfl, ?_⟩
    have hne : c ≠ ':' := by rintro rfl; exact absurd hc (by decide)
    have hn : numberLength (c :: (cs ++ r)) = cs.length + 1 := numberLength_append h
    rw [read_of_not_isQuote (isQuote_of_isDigit hc)]
    simp [readPlain, hc, hne, hn]
  | @word c cs hc hcs hr =>
    refine ⟨c, cs, rfl, ?_⟩
    have hne : c ≠ ':' := by rintro rfl; exact absurd hc (by decide)
    rw [read_of_not_isQuote (isQuote_of_isWordStart hc)]
    simp [readPlain, hc, hne, isDigit_of_isWordStart hc,
      Text.takeWhile_append_eq_left.2 ⟨hcs, hr⟩, Text.dropWhile_append_eq_right hcs hr]
  | cast => exact ⟨':', [':'], rfl, by simp [Token.read, isQuote, readPlain]⟩
  | openParen => exact ⟨'(', [], rfl, by simp [Token.read, isQuote, readPlain]; decide⟩
  | closeParen => exact ⟨')', [], rfl, by simp [Token.read, isQuote, readPlain]; decide⟩
  | comma => exact ⟨',', [], rfl, by simp [Token.read, isQuote, readPlain]; decide⟩
  | @punct c hc hr =>
    refine ⟨c, [], rfl, ?_⟩
    simp only [isOther, Bool.and_eq_true, Bool.not_eq_true', bne_iff_ne] at hc
    obtain ⟨⟨⟨⟨⟨hq, hd⟩, hw⟩, ho⟩, hcl⟩, hcm⟩ := hc
    rw [read_of_not_isQuote hq, List.nil_append, readPlain, if_neg fun h => hr h.1 h.2]
    simp [hd, hw, ho, hcl, hcm]

private theorem exists_numeral_cons {c : Char} (hc : c.isDigit = true) (cs : Text) :
    ∃ w r, cs = w ++ r ∧ Numeral r (c :: w) := by
  obtain ⟨w, r, he, hw⟩ := exists_numeral (c :: cs)
  by_cases hne : w = []
  · rw [hne, List.nil_append] at he
    subst he
    cases hw with
    | whole _ hr =>
      have := takeWhile_isDigit_eq_nil hr
      simp [hc] at this
    | fraction => simp at hne
  · obtain ⟨d, w, rfl⟩ := List.exists_cons_of_ne_nil hne
    rw [List.cons_append, List.cons.injEq] at he
    obtain ⟨rfl, rfl⟩ := he
    exact ⟨w, r, rfl, hw⟩

theorem written_readPlain {c : Char} (hq : isQuote c = false) (cs : Text) :
    c :: cs = (readPlain c cs).text ++ (readPlain c cs).rest ∧
      Written (readPlain c cs).rest (readPlain c cs).token (readPlain c cs).text := by
  unfold readPlain
  split
  · next h =>
    obtain ⟨rfl, h⟩ := h
    cases cs with
    | nil => simp at h
    | cons d cs =>
      obtain rfl : d = ':' := by simpa using h
      exact ⟨rfl, .cast⟩
  · next hcast =>
    split
    · next hd =>
      obtain ⟨w, r, rfl, hw⟩ := exists_numeral_cons hd cs
      have hn : numberLength (c :: (w ++ r)) = w.length + 1 := numberLength_append hw
      simpa [hn] using Written.number hd hw
    · next hd =>
      split
      · next hword =>
        obtain ⟨w, r, rfl, hw, hr⟩ := Text.exists_span continuesWord cs
        simpa [Text.takeWhile_append_eq_left.2 ⟨hw, hr⟩,
          Text.dropWhile_append_eq_right hw hr] using Written.word hword hw hr
      · next hword =>
        split
        · next h => exact h ▸ ⟨rfl, .openParen⟩
        · next ho =>
          split
          · next h => exact h ▸ ⟨rfl, .closeParen⟩
          · next hcl =>
            split
            · next h => exact h ▸ ⟨rfl, .comma⟩
            · next hcm =>
              exact ⟨rfl, .punct (by simp [isOther, hq, hd, hword, ho, hcl, hcm])
                fun h hh => hcast ⟨h, hh⟩⟩

/-- A quote that is never closed is a token of its own. -/
theorem readPlain_of_isQuote {c : Char} (hq : isQuote c = true) (cs : Text) :
    readPlain c cs = ⟨.punct c, [c], cs⟩ := by
  simp only [isQuote, Bool.or_eq_true, beq_iff_eq] at hq
  have hw : isWordStart c = false := by rcases hq with (rfl | rfl) | rfl <;> decide
  rcases hq with (rfl | rfl) | rfl <;> simp [readPlain, hw]

/-- What is read as a token is its written form, or a quote that is never closed. -/
theorem written_or_read_eq (c : Char) (cs : Text) :
    (c :: cs = (read c cs).text ++ (read c cs).rest ∧
      Written (read c cs).rest (read c cs).token (read c cs).text) ∨
    isQuote c = true ∧ read c cs = ⟨.punct c, [c], cs⟩ := by
  by_cases hq : isQuote c = true
  · cases hl : literal? c cs with
    | none => exact .inr ⟨hq, by simp [read, hq, hl, readPlain_of_isQuote]⟩
    | some p =>
      obtain ⟨v, s, r⟩ := p
      obtain ⟨rfl, hs, hr⟩ := quotes_of_literal? hl
      exact .inl (by simpa [read, hq, hl] using Written.literal hq hs hr)
  · rw [read_of_not_isQuote (by simpa using hq)]
    exact .inl (written_readPlain (by simpa using hq) cs)

theorem source_read (c : Char) (cs : Text) : c :: cs = (read c cs).text ++ (read c cs).rest := by
  rcases written_or_read_eq c cs with ⟨hsource, -⟩ | ⟨-, hread⟩
  · exact hsource
  · rw [hread]
    rfl

theorem written_read {c : Char} {cs : Text}
    (h : ∀ q, isQuote q = true → (read c cs).token ≠ .punct q) :
    c :: cs = (read c cs).text ++ (read c cs).rest ∧
      Written (read c cs).rest (read c cs).token (read c cs).text := by
  rcases written_or_read_eq c cs with hw | ⟨hq, hread⟩
  · exact hw
  · exact absurd (by rw [hread]) (h c hq)

/-- Characters that end any token before them. -/
def isBreak (c : Char) : Bool :=
  Lexeme.isSeparator c || c == ';' || c == ',' || c == '(' || c == ')' || c == '/'

/-- Nothing that follows joins a token. -/
def breaks (r : Text) : Bool := r.head?.all isBreak

theorem breaks_iff {r : Text} :
    breaks r = true ↔ r = [] ∨ ∃ c t, r = c :: t ∧ isBreak c = true := by
  cases r <;> simp [breaks]

theorem eq_false_of_isBreak {p : Char → Bool} {c : Char} (hc : isBreak c = true)
    (hp : (" \t\r\n;,()/".toList.all fun c => !p c) = true) : p c = false := by
  have hmem : c ∈ " \t\r\n;,()/".toList := by
    simp only [isBreak, Lexeme.isSeparator, Bool.or_eq_true, beq_iff_eq] at hc
    rcases hc with ((((((((rfl | rfl) | rfl) | rfl) | rfl) | rfl) | rfl) | rfl) | rfl) <;> decide
  simpa using List.all_eq_true.1 hp c hmem

section
variable {u r r' : Text}

theorem head?_append_ne {q : Char} (hq : isBreak q = false) (h : (u ++ r).head? ≠ some q)
    (hr : breaks r' = true) : (u ++ r').head? ≠ some q := by
  cases u with
  | nil =>
    rcases breaks_iff.1 hr with rfl | ⟨c, t, rfl, hc⟩
    · simp
    · rintro he
      obtain rfl : c = q := by simpa using he
      simp [hc] at hq
  | cons c u => exact h

theorem takeWhile_append_eq_nil {p : Char → Bool}
    (hp : (" \t\r\n;,()/".toList.all fun c => !p c) = true) (h : (u ++ r).takeWhile p = [])
    (hr : breaks r' = true) : (u ++ r').takeWhile p = [] := by
  cases u with
  | nil =>
    rcases breaks_iff.1 hr with rfl | ⟨c, t, rfl, hc⟩
    · rfl
    · exact Text.takeWhile_eq_nil_cons.2 (eq_false_of_isBreak hc hp)
  | cons c u => exact Text.takeWhile_eq_nil_cons.2 (Text.takeWhile_eq_nil_cons.1 h)

private theorem extendsNumber_append (h : extendsNumber (u ++ r) = false) (hr : breaks r' = true) :
    extendsNumber (u ++ r') = false := by
  have hd := takeWhile_append_eq_nil (p := Char.isDigit) (by decide)
    (takeWhile_isDigit_eq_nil h) hr
  match u with
  | [] =>
    exact extendsNumber_of_takeWhile hd
      (head?_append_ne (u := []) (r := []) (by decide) (by simp) hr)
  | [c] =>
    by_cases hc : c = '.'
    · subst hc
      exact extendsNumber_point
        (takeWhile_append_eq_nil (u := []) (r := []) (by decide) rfl hr)
    · exact extendsNumber_of_takeWhile hd (by simpa using hc)
  | c :: d :: u =>
    by_cases hc : c = '.'
    · subst hc
      exact h
    · exact extendsNumber_of_takeWhile hd (by simpa using hc)

private theorem Numeral.congr {w : Text} (h : Numeral (u ++ r) w) (hr : breaks r' = true) :
    Numeral (u ++ r') w := by
  cases h with
  | whole h he => exact .whole h (extendsNumber_append he hr)
  | fraction hd hf hne ht =>
    exact .fraction hd hf hne (takeWhile_append_eq_nil (by decide) ht hr)

/-- Text after a token may be cut at a break, or replaced from there on. -/
theorem Written.congr {k : Token} {s : Text} (h : Written (u ++ r) k s) (hr : breaks r' = true) :
    Written (u ++ r') k s := by
  cases h with
  | literal hq h hn =>
    refine .literal hq h (head?_append_ne ?_ hn hr)
    simp only [isQuote, Bool.or_eq_true, beq_iff_eq] at hq
    rcases hq with (rfl | rfl) | rfl <;> decide
  | number hc h => exact .number hc (h.congr hr)
  | word hc hcs ht => exact .word hc hcs (takeWhile_append_eq_nil (by decide) ht hr)
  | cast => exact .cast
  | openParen => exact .openParen
  | closeParen => exact .closeParen
  | comma => exact .comma
  | punct hc hn => exact .punct hc fun he => head?_append_ne (by decide) (hn he) hr

end

/-- A token is read again when nothing follows it. -/
theorem read_alone (c : Char) (cs : Text) :
    ∃ u, (read c cs).text = c :: u ∧ read c u = ⟨(read c cs).token, c :: u, []⟩ := by
  rcases written_or_read_eq c cs with ⟨hsource, hw⟩ | ⟨hq, hread⟩
  · have hw : Written ([] ++ []) (read c cs).token (read c cs).text :=
      Written.congr (u := []) hw rfl
    obtain ⟨d, u, ht, hread⟩ := hw.read
    rw [ht, List.cons_append, List.cons.injEq] at hsource
    obtain ⟨rfl, -⟩ := hsource
    rw [List.append_nil, List.append_nil] at hread
    exact ⟨u, ht, by rw [hread, ht]⟩
  · rw [hread]
    exact ⟨[], rfl, by simp [read, hq, literal?, readPlain_of_isQuote]⟩

end Token

end TableDialects
