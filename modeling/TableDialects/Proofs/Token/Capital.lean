import TableDialects.Text.Blank
import TableDialects.Proofs.Text.Doubled
import TableDialects.Proofs.Token.Spelling

/-!
# Texts in capitals

The lexer does not look at the case of ASCII letters: a text in capitals has the same lexemes, in
capitals.
-/
namespace TableDialects

namespace Text

theorem upperAscii_cons (c : Char) (t : Text) : upperAscii (c :: t) = c.toUpper :: upperAscii t :=
  rfl

theorem upperAscii_append (t u : Text) : upperAscii (t ++ u) = upperAscii t ++ upperAscii u :=
  List.map_append

theorem length_upperAscii (t : Text) : (upperAscii t).length = t.length := List.length_map _

private theorem upperAscii_take (n : Nat) (t : Text) :
    upperAscii (t.take n) = (upperAscii t).take n :=
  List.map_take

theorem upperAscii_drop (n : Nat) (t : Text) : upperAscii (t.drop n) = (upperAscii t).drop n :=
  List.map_drop

/-- The small ASCII letters by their numbers. -/
def smallLetters : List Nat := List.range' 97 26

/-- Only ASCII letters have other capitals. -/
theorem toUpper_eq_or_mem (c : Char) : c.toUpper = c ∨ c.toNat ∈ smallLetters := by
  by_cases h : 97 ≤ c.toNat ∧ c.toNat ≤ 122
  · exact .inr (List.mem_range'_1.2 (by omega))
  · left
    refine dif_neg fun hc => h ?_
    rw [UInt32.le_iff_toNat_le, UInt32.le_iff_toNat_le] at hc
    exact hc

/-- What holds of each ASCII letter and its capital alike does not depend on the case. -/
theorem apply_toUpper {α : Type} (p : Char → α)
    (h : ∀ n ∈ smallLetters, p (Char.ofNat n).toUpper = p (Char.ofNat n)) (c : Char) :
    p c.toUpper = p c := by
  rcases toUpper_eq_or_mem c with hc | hc
  · rw [hc]
  · simpa using h c.toNat hc

/-- A property of all digits by their numbers. -/
theorem of_isDigit {p : Char → Prop} (hp : ∀ n ∈ List.range' 48 10, p (Char.ofNat n)) {c : Char}
    (hc : c.isDigit = true) : p c := by
  have hbounds : 48 ≤ c.toNat ∧ c.toNat ≤ 57 := by
    simpa [Char.isDigit, UInt32.le_iff_toNat_le] using hc
  have h := hp c.toNat (List.mem_range'_1.2 (by omega))
  rwa [Char.ofNat_toNat] at h

/-- The ASCII capitals by their numbers. -/
def capitals : List Nat := List.range' 65 26

theorem toLower_eq_or_mem (c : Char) : c.toLower = c ∨ c.toNat ∈ capitals := by
  by_cases h : 65 ≤ c.toNat ∧ c.toNat ≤ 90
  · exact .inr (List.mem_range'_1.2 (by omega))
  · left
    refine dif_neg fun hc => h ?_
    rw [ge_iff_le, UInt32.le_iff_toNat_le, UInt32.le_iff_toNat_le] at hc
    exact hc

/-- What holds of each ASCII capital and its small letter alike does not depend on the case. -/
theorem apply_toLower {α : Type} (p : Char → α)
    (h : ∀ n ∈ capitals, p (Char.ofNat n).toLower = p (Char.ofNat n)) (c : Char) :
    p c.toLower = p c := by
  rcases toLower_eq_or_mem c with hc | hc
  · rw [hc]
  · simpa using h c.toNat hc

/-- A character is its small letter or the capital of it. -/
theorem eq_or_eq_toUpper {c d : Char} (h : c.toLower = d) : c = d ∨ c = d.toUpper := by
  subst h
  have hcapitals : ∀ n ∈ capitals, Char.ofNat n = (Char.ofNat n).toLower.toUpper := by decide
  refine (toLower_eq_or_mem c).imp Eq.symm fun hc => ?_
  simpa using hcapitals c.toNat hc

theorem toUpper_eq_iff {d : Char}
    (h : ∀ n ∈ smallLetters, decide ((Char.ofNat n).toUpper = d) = decide (Char.ofNat n = d))
    (c : Char) : c.toUpper = d ↔ c = d := by
  simpa using apply_toUpper (fun c => decide (c = d)) h c

/-- What no ASCII letter is has no other capital. -/
theorem toUpper_of_not_letter {p : Char → Bool} (hp : ∀ n ∈ smallLetters, p (Char.ofNat n) = false)
    {c : Char} (h : p c = true) : c.toUpper = c := by
  refine (toUpper_eq_or_mem c).resolve_right fun hm => ?_
  have hc := hp c.toNat hm
  rw [Char.ofNat_toNat, h] at hc
  exact absurd hc (by simp)

theorem upperAscii_upperAscii (t : Text) : upperAscii (upperAscii t) = upperAscii t := by
  have h : ∀ c : Char, c.toUpper.toUpper = c.toUpper := apply_toUpper Char.toUpper (by decide)
  simp [upperAscii, Function.comp_def, h]

theorem head?_upperAscii {d : Char} (hd : ∀ c : Char, c.toUpper = d ↔ c = d) (t : Text) :
    (upperAscii t).head? = some d ↔ t.head? = some d := by
  cases t with
  | nil => simp [upperAscii]
  | cons c t => simp [upperAscii_cons, hd]

section
variable {p : Char → Bool} (hp : ∀ c, p c.toUpper = p c) (t : Text)
include hp

theorem takeWhile_upperAscii : (upperAscii t).takeWhile p = upperAscii (t.takeWhile p) := by
  rw [upperAscii, List.takeWhile_map, upperAscii]
  exact congrArg _ (congrArg (List.takeWhile · t) (funext hp))

theorem dropWhile_upperAscii : (upperAscii t).dropWhile p = upperAscii (t.dropWhile p) := by
  rw [upperAscii, List.dropWhile_map, upperAscii]
  exact congrArg _ (congrArg (List.dropWhile · t) (funext hp))

end

theorem isBlank_toUpper : ∀ c, isBlank c.toUpper = isBlank c := apply_toUpper isBlank (by decide)

theorem trimEnd_upperAscii (t : Text) : trimEnd (upperAscii t) = upperAscii (trimEnd t) := by
  have h := dropWhile_upperAscii isBlank_toUpper t.reverse
  simp only [upperAscii] at h
  simp [trimEnd, upperAscii, ← List.map_reverse, h]

theorem trim_upperAscii (t : Text) : trim (upperAscii t) = upperAscii (trim t) := by
  rw [trim, trimStart, dropWhile_upperAscii isBlank_toUpper, trimEnd_upperAscii, trim, trimStart]

/-- A text in which no letter has another capital is found at the same places in capitals. -/
theorem holds_upperAscii {needle : Text} (h : ∀ n ∈ needle, ∀ c : Char, c.toUpper = n ↔ c = n)
    (t : Text) : holds needle (upperAscii t) = holds needle t := by
  have hp : ∀ ns : Text, (∀ n ∈ ns, ∀ c : Char, c.toUpper = n ↔ c = n) → ∀ t,
      ns.isPrefixOf (upperAscii t) = ns.isPrefixOf t := by
    intro ns hns
    induction ns with
    | nil => simp
    | cons n ns ih =>
      have hn := hns n List.mem_cons_self
      intro t
      cases t with
      | nil => rfl
      | cons c t =>
        have hc : (n == c.toUpper) = (n == c) := by
          rw [Bool.eq_iff_iff, beq_iff_eq, beq_iff_eq, eq_comm, hn, eq_comm]
        rw [upperAscii_cons, List.isPrefixOf_cons_cons, List.isPrefixOf_cons_cons, hc,
          ih fun m hm => hns m (List.mem_cons_of_mem n hm)]
  induction t with
  | nil => rfl
  | cons c t ih =>
    have hcons := hp needle h (c :: t)
    rw [upperAscii_cons] at hcons ⊢
    rw [holds_cons, holds_cons, hcons, ih]

end Text

open Text

namespace Token

theorem isQuote_toUpper : ∀ c, isQuote c.toUpper = isQuote c := apply_toUpper isQuote (by decide)

private theorem isDigit_toUpper : ∀ c : Char, c.toUpper.isDigit = c.isDigit :=
  apply_toUpper Char.isDigit (by decide)

private theorem isWordStart_toUpper : ∀ c, isWordStart c.toUpper = isWordStart c :=
  apply_toUpper isWordStart (by decide)

private theorem continuesWord_toUpper : ∀ c, continuesWord c.toUpper = continuesWord c :=
  apply_toUpper continuesWord (by decide)

theorem eq_quote_toUpper {q : Char} (hq : isQuote q = true) (c : Char) : c.toUpper = q ↔ c = q := by
  simp only [isQuote, Bool.or_eq_true, beq_iff_eq] at hq
  rcases hq with (rfl | rfl) | rfl <;> exact toUpper_eq_iff (by decide) c

private theorem escapes_toUpper (q c : Char) : escapes q c.toUpper = escapes q c := by
  have hescape := apply_toUpper (· == '\\') (by decide) c
  simp only [escapes, hescape]

/-- The token in capitals. -/
def upperAscii : Token → Token
  | word name => word (Text.upperAscii name)
  | quoted quote value => quoted quote (Text.upperAscii value)
  | number digits => number (Text.upperAscii digits)
  | punct c => punct c.toUpper
  | t => t

def Reading.upperAscii (r : Reading) : Reading :=
  ⟨r.token.upperAscii, Text.upperAscii r.text, Text.upperAscii r.rest⟩

private theorem literal?_upperAscii {q : Char} (hq : isQuote q = true) (t : Text) :
    literal? q (Text.upperAscii t) = (literal? q t).map fun p =>
      (Text.upperAscii p.1, Text.upperAscii p.2.1, Text.upperAscii p.2.2) := by
  fun_induction literal? q t with
  | case1 => rfl
  | case2 c he => simp [Text.upperAscii, literal?, escapes_toUpper, he]
  | case3 he => simp [Text.upperAscii, literal?, escapes_toUpper, he, eq_quote_toUpper hq]
  | case4 c he hc => simp [Text.upperAscii, literal?, escapes_toUpper, he, hc, eq_quote_toUpper hq]
  | case5 c d cs he ih =>
    simp [upperAscii_cons, literal?, escapes_toUpper, he, ih, Function.comp_def]
  | case6 cs he ih =>
    simp [upperAscii_cons, literal?, escapes_toUpper, he, ih, eq_quote_toUpper hq,
      Function.comp_def]
  | case7 d cs hd he =>
    simp [Text.upperAscii, literal?, escapes_toUpper, hd, he, eq_quote_toUpper hq]
  | case8 c d cs he hc ih =>
    rw [upperAscii_cons] at ih
    simp [upperAscii_cons, literal?, escapes_toUpper, he, hc, ih, eq_quote_toUpper hq,
      Function.comp_def]

private theorem numberLength_upperAscii (t : Text) :
    numberLength (Text.upperAscii t) = numberLength t := by
  have hpoint : ∀ c : Char, c.toUpper = '.' ↔ c = '.' := toUpper_eq_iff (by decide)
  rw [numberLength, takeWhile_upperAscii isDigit_toUpper, length_upperAscii, ← upperAscii_drop,
    numberLength]
  cases h : t.drop (t.takeWhile Char.isDigit).length with
  | nil => rfl
  | cons c cs =>
    by_cases hc : c = '.'
    · subst hc
      simp [upperAscii_cons, takeWhile_upperAscii isDigit_toUpper, length_upperAscii]
    · have hc' : c.toUpper ≠ '.' := fun h => hc ((hpoint c).1 h)
      rw [upperAscii_cons]
      split
      · next he => exact absurd (List.cons.inj he).1 hc'
      · split
        · next he => exact absurd (List.cons.inj he).1 hc
        · rfl

private theorem readPlain_upperAscii (c : Char) (cs : Text) :
    readPlain c.toUpper (Text.upperAscii cs) = (readPlain c cs).upperAscii := by
  have hnumber := numberLength_upperAscii (c :: cs)
  rw [upperAscii_cons] at hnumber
  have hcolon : ∀ c : Char, c.toUpper = ':' ↔ c = ':' := toUpper_eq_iff (by decide)
  have hopen : ∀ c : Char, c.toUpper = '(' ↔ c = '(' := toUpper_eq_iff (by decide)
  have hclose : ∀ c : Char, c.toUpper = ')' ↔ c = ')' := toUpper_eq_iff (by decide)
  have hcomma : ∀ c : Char, c.toUpper = ',' ↔ c = ',' := toUpper_eq_iff (by decide)
  have hhead := head?_upperAscii hcolon cs
  simp only [readPlain, hcolon, hhead, hopen, hclose, hcomma, isDigit_toUpper, isWordStart_toUpper,
    hnumber, takeWhile_upperAscii continuesWord_toUpper, dropWhile_upperAscii continuesWord_toUpper]
  by_cases hcast : c = ':' ∧ cs.head? = some ':'
  · simp [hcast, Reading.upperAscii, Token.upperAscii, Text.upperAscii]
  rw [if_neg hcast, if_neg hcast]
  split
  · simp [Reading.upperAscii, Token.upperAscii, Text.upperAscii]
  split
  · rfl
  split
  · rfl
  split
  · rfl
  split <;> rfl

private theorem read_upperAscii (c : Char) (cs : Text) :
    read c.toUpper (Text.upperAscii cs) = (read c cs).upperAscii := by
  by_cases hq : isQuote c = true
  · have hc : c.toUpper = c := (eq_quote_toUpper hq c).2 rfl
    have hplain := readPlain_upperAscii c cs
    rw [hc] at hplain
    rw [hc, read, if_pos hq, read, if_pos hq, literal?_upperAscii hq]
    cases literal? c cs with
    | none => exact hplain
    | some p =>
      simp only [Option.map_some, Reading.upperAscii, upperAscii_cons, hc, ofLiteral]
      split <;> rfl
  · rw [read, isQuote_toUpper, if_neg hq, read, if_neg hq, readPlain_upperAscii]

end Token

namespace Lexeme

private theorem isSeparator_toUpper : ∀ c, isSeparator c.toUpper = isSeparator c :=
  apply_toUpper isSeparator (by decide)

private theorem lineLength?_upperAscii (t : Text) :
    lineLength? (Text.upperAscii t) = lineLength? t := by
  have hfeed : ∀ c : Char, c.toUpper = '\n' ↔ c = '\n' := toUpper_eq_iff (by decide)
  have hreturn : ∀ c : Char, c.toUpper = '\r' ↔ c = '\r' := toUpper_eq_iff (by decide)
  fun_induction lineLength? t with
  | case1 => rfl
  | case2 cs => rfl
  | case3 cs h =>
    change lineLength? ('\r' :: Text.upperAscii cs) = _
    rw [lineLength?, if_pos ((head?_upperAscii hfeed cs).2 h)]
  | case4 cs h =>
    change lineLength? ('\r' :: Text.upperAscii cs) = _
    rw [lineLength?, if_neg fun he => h ((head?_upperAscii hfeed cs).1 he)]
  | case5 c cs h₁ h₂ ih =>
    rw [upperAscii_cons, lineLength?, ih]
    · exact fun he => h₁ ((hfeed c).1 he)
    · exact fun he => h₂ ((hreturn c).1 he)

private theorem blockLength?_upperAscii (t : Text) :
    blockLength? (Text.upperAscii t) = blockLength? t := by
  have hstar : ∀ c : Char, c.toUpper = '*' ↔ c = '*' := toUpper_eq_iff (by decide)
  have hslash : ∀ c : Char, c.toUpper = '/' ↔ c = '/' := toUpper_eq_iff (by decide)
  fun_induction blockLength? t with
  | case1 => rfl
  | case2 cs => rfl
  | case3 c cs h ih =>
    rw [upperAscii_cons, blockLength?, ih]
    intro ds hc hds
    have hhead := (head?_upperAscii hslash cs).1 (by rw [hds]; rfl)
    obtain ⟨es, he⟩ := List.head?_eq_some_iff.1 hhead
    exact h es ((hstar c).1 hc) he

theorem skipLength_cons (c : Char) (t : Text) :
    skipLength (c :: t) =
      if c = '-' ∧ t.head? = some '-' then ((lineLength? t.tail).map (· + 2)).getD 0
      else if c = '/' ∧ t.head? = some '*' then ((blockLength? t.tail).map (· + 2)).getD 0
      else if isSeparator c then 1 else 0 := by
  unfold skipLength
  split
  · next heq =>
    cases heq
    simp
  · next heq =>
    cases heq
    simp
  · next h₁ h₂ heq =>
    cases heq
    have hline : ¬(c = '-' ∧ t.head? = some '-') := by
      rintro ⟨hc, hh⟩
      obtain ⟨u, hu⟩ := List.head?_eq_some_iff.1 hh
      exact h₁ u hc hu
    have hblock : ¬(c = '/' ∧ t.head? = some '*') := by
      rintro ⟨hc, hh⟩
      obtain ⟨u, hu⟩ := List.head?_eq_some_iff.1 hh
      exact h₂ u hc hu
    rw [if_neg hline, if_neg hblock]
  · next heq => cases heq

private theorem skipLength_upperAscii (c : Char) (t : Text) :
    skipLength (c.toUpper :: Text.upperAscii t) = skipLength (c :: t) := by
  have hdash : ∀ c : Char, c.toUpper = '-' ↔ c = '-' := toUpper_eq_iff (by decide)
  have hstar : ∀ c : Char, c.toUpper = '*' ↔ c = '*' := toUpper_eq_iff (by decide)
  have hslash : ∀ c : Char, c.toUpper = '/' ↔ c = '/' := toUpper_eq_iff (by decide)
  have htail : (Text.upperAscii t).tail = Text.upperAscii t.tail := List.map_tail.symm
  simp only [skipLength_cons, hdash, hslash, head?_upperAscii hdash, head?_upperAscii hstar, htail,
    lineLength?_upperAscii, blockLength?_upperAscii, isSeparator_toUpper]

private theorem gapLength_upperAscii (t : Text) : gapLength (Text.upperAscii t) = gapLength t := by
  fun_induction gapLength t with
  | case1 =>
    rw [Text.upperAscii, List.map_nil, gapLength]
  | case2 c cs h => rw [upperAscii_cons, gapLength, skipLength_upperAscii, h]
  | case3 c cs n h ih =>
    rw [upperAscii_cons, gapLength, skipLength_upperAscii, h]
    simp only [← upperAscii_drop, ih]

/-- The lexeme in capitals. -/
def upperAscii (l : Lexeme) : Lexeme :=
  ⟨Text.upperAscii l.gap, Text.upperAscii l.text, l.token.upperAscii⟩

theorem lex_upperAscii (t : Text) :
    lex (Text.upperAscii t) = ((lex t).1.map upperAscii, Text.upperAscii (lex t).2) := by
  fun_induction lex t with
  | case1 t h =>
    refine lex_of_drop_nil ?_
    rw [gapLength_upperAscii, ← upperAscii_drop, h]
    rfl
  | case2 t c cs h r l ih =>
    have hd : (Text.upperAscii t).drop (gapLength (Text.upperAscii t)) =
        c.toUpper :: Text.upperAscii cs := by
      rw [gapLength_upperAscii, ← upperAscii_drop, h]
      rfl
    rw [lex_of_drop_cons hd, Token.read_upperAscii, gapLength_upperAscii, ← upperAscii_take]
    simp only [Token.Reading.upperAscii]
    rw [ih]
    rfl

end Lexeme

/-- A text in capitals has the same lexemes, in capitals. -/
theorem tokenize_upperAscii (t : Text) :
    tokenize (Text.upperAscii t) = (tokenize t).map Lexeme.upperAscii := by
  rw [tokenize, Lexeme.lex_upperAscii, tokenize]

namespace Token

/-- The token with a word in capitals. Literals stay as they are. -/
def wordUpperAscii : Token → Token
  | word name => word (Text.upperAscii name)
  | t => t

private theorem Numeral.upperAscii {r w : Text} (h : Numeral r w) : Text.upperAscii w = w := by
  have hdigit : ∀ n ∈ smallLetters, (Char.ofNat n).isDigit = false := by decide
  have hdigits : ∀ {ds : Text}, (∀ c ∈ ds, c.isDigit = true) → Text.upperAscii ds = ds :=
    fun hd => (List.map_congr_left fun c hc => toUpper_of_not_letter hdigit (hd c hc)).trans (List.map_id _)
  cases h with
  | whole h => exact hdigits h
  | fraction hd hf =>
    rw [upperAscii_append, upperAscii_cons, hdigits hd, hdigits hf]
    rfl

/-- Only a literal depends on the case of what is not a word. -/
theorem Written.wordUpperAscii_upperAscii {r s : Text} {k : Token} (h : Written r k s)
    (hq : ∀ c ∈ s, isQuote c = false) : k.upperAscii.wordUpperAscii = k.wordUpperAscii := by
  cases h with
  | literal hquote _ _ =>
    exact absurd (hq _ List.mem_cons_self) (by simp [hquote])
  | number _ hn => exact congrArg Token.number hn.upperAscii
  | word _ _ _ => exact congrArg Token.word (upperAscii_upperAscii _)
  | punct hc _ =>
    have hother : ∀ n ∈ smallLetters, isOther (Char.ofNat n) = false := by decide
    exact congrArg Token.punct (toUpper_of_not_letter hother hc)
  | _ => rfl

end Token

/-- Without quotes, lexemes in capitals have the same tokens up to the case of words. -/
theorem Lexeme.Clear.tokens_upperAscii {ls : List Lexeme} {r : Text} (h : Clear ls r)
    (hq : ∀ c ∈ source ls, Token.isQuote c = false) :
    (ls.map Lexeme.upperAscii).map (·.token.wordUpperAscii) = ls.map (·.token.wordUpperAscii) := by
  induction ls with
  | nil => rfl
  | cons l ls ih =>
    have hl := h.1.written.wordUpperAscii_upperAscii fun c hc => hq c (by simp [hc])
    have hrec := ih h.2 fun c hc => hq c (by simp [hc])
    rw [List.map_cons, List.map_cons, List.map_cons, hrec]
    exact congrArg (· :: _) hl

end TableDialects
