import TableDialects.Proofs.Script.Phrase
import TableDialects.Proofs.Statement.Scanning
import TableDialects.Script.Preparation
import Mathlib.Data.List.Infix

/-!
# Tidy sources

A source is tidy when its lexemes can be told from it before and after preparation: no phrase hides
in a comment, in double quotes or in a part of a word, and names between backticks are bare words
that touch no other word.
-/
namespace TableDialects

namespace Script

/-- The texts that preparation looks for, word by word. -/
def patterns : List (List String) :=
  Lexeme.typePhrases.map (·.1) ++ [["COLLATE", "pg_catalog.\"default\""]]

/-- No phrase begins within the text, whatever follows it. -/
def Mute (t : Text) : Prop :=
  ∀ ws ∈ patterns, ∀ u, u <:+ t → u ≠ [] → ∀ r, afterWords? ws (u ++ r) = none

def unticked (t : Text) : Text := t.filter (· != '\x60')

theorem unticked_append (t u : Text) : unticked (t ++ u) = unticked t ++ unticked u :=
  List.filter_append t u

theorem unticked_of_not_mem {t : Text} (h : '\x60' ∉ t) : unticked t = t := by
  refine List.filter_eq_self.2 fun c hc => ?_
  have : c ≠ '\x60' := by rintro rfl; exact h hc
  simpa using this

theorem not_mem_unticked (t : Text) : '\x60' ∉ unticked t := by
  simp [unticked]

private theorem unticked_unticked (t : Text) : unticked (unticked t) = unticked t :=
  unticked_of_not_mem (not_mem_unticked t)

/-- A gap that stays or loses its backticks. -/
def Cleaned (g g' : Text) : Prop := g' = g ∨ g' = unticked g

theorem Cleaned.unticked_eq {g g' : Text} (h : Cleaned g g') : unticked g' = unticked g := by
  rcases h with rfl | rfl
  · rfl
  · exact unticked_unticked g

private theorem Cleaned.trans {g g' g'' : Text} (h : Cleaned g g') (h' : Cleaned g' g'') :
    Cleaned g g'' := by
  rcases h' with rfl | rfl
  · exact h
  · exact .inr h.unticked_eq

end Script

namespace Token

variable {r u : Text}

private theorem Written.of_word {name : Text} (h : Written r (.word name) u) :
    (u = name ∧ Lexeme.IsWord name ∧ r.takeWhile continuesWord = []) ∨
      ∃ s, u = '\x60' :: s ∧ Quotes '\x60' name s ∧ r.head? ≠ some '\x60' := by
  generalize hk : Token.word name = k at h
  cases h with
  | @literal q v s hq hs hr =>
    by_cases htick : q = '\x60'
    · subst htick
      obtain rfl : name = v := by simpa [ofLiteral] using hk
      exact .inr ⟨s, rfl, hs, hr⟩
    · simp [ofLiteral, htick] at hk
  | word hc hcs hr =>
    cases hk
    refine .inl ⟨rfl, ?_, hr⟩
    rw [Lexeme.IsWord, List.head?_cons, Option.any_some, hc, Bool.true_and]
    exact List.all_eq_true.2 hcs
  | _ => cases hk

theorem Written.of_quoted {q : Char} {v : Text} (h : Written r (.quoted q v) u) :
    q ≠ '\x60' ∧ ∃ s, u = q :: s ∧ Quotes q v s ∧ r.head? ≠ some q := by
  generalize hk : Token.quoted q v = k at h
  cases h with
  | @literal q' v' s hq hs hr =>
    by_cases htick : q' = '\x60'
    · simp [ofLiteral, htick] at hk
    · obtain ⟨rfl, rfl⟩ : q = q' ∧ v = v' := by simpa [ofLiteral, htick] using hk
      exact ⟨htick, s, rfl, hs, hr⟩
  | _ => cases hk

/-- A token that begins with a quote is a literal, and behind its closing quote stands no other. -/
theorem Written.of_isQuote {k : Token} {q : Char} {s : Text} (h : Written r k (q :: s))
    (hq : isQuote q = true) : (∃ v, k = ofLiteral q v) ∧ r.head? ≠ some q := by
  have hother : q.isDigit = false ∧ isWordStart q = false ∧ isOther q = false ∧
      ∀ c ∈ [':', '(', ')', ','], q ≠ c := by
    simp only [isQuote, Bool.or_eq_true, beq_iff_eq] at hq
    rcases hq with (rfl | rfl) | rfl
    all_goals exact ⟨by decide, by decide, by decide, by simp⟩
  obtain ⟨hdigit, hword, hpunct, hmark⟩ := hother
  generalize hu : q :: s = u at h
  have hfirst : ∀ {c : Char} {cs : Text}, q :: s = c :: cs → q = c := fun he => (List.cons.inj he).1
  cases h with
  | literal _ _ hr =>
    obtain rfl := hfirst hu
    exact ⟨⟨_, rfl⟩, hr⟩
  | number hc _ => exact absurd (hdigit.symm.trans (hfirst hu ▸ hc)) (by simp)
  | word hc _ _ => exact absurd (hword.symm.trans (hfirst hu ▸ hc)) (by simp)
  | punct hc _ => exact absurd (hpunct.symm.trans (hfirst hu ▸ hc)) (by simp)
  | _ => exact absurd (hfirst hu) (hmark _ (by simp))

end Token

namespace Lexeme

open Script (unticked Mute Cleaned)

/-- What stands in a block comment over which the splitter goes as over other text: neither quotes
nor semicolons nor double dashes nor the word that begins a directive. -/
structure Calm (body : Text) : Prop where
  ends : ¬['*', '/'] <:+: body
  passes : ∀ c ∈ body, c = '\n' ∨ Statement.passes c = true
  dashes : ¬['-', '-'] <:+: body
  delimiter : ∀ w ∈ Text.words body, Text.same w "delimiter" = false

instance (body : Text) : Decidable (Calm body) :=
  decidable_of_iff
    (¬['*', '/'] <:+: body ∧ (body.all fun c => c == '\n' || Statement.passes c) = true ∧
      ¬['-', '-'] <:+: body ∧ ∀ w ∈ Text.words body, Text.same w "delimiter" = false)
    ⟨fun ⟨he, hp, hd, hw⟩ => ⟨he, by simpa using hp, hd, hw⟩,
      fun ⟨he, hp, hd, hw⟩ => ⟨he, by simpa using hp, hd, hw⟩⟩

private theorem Calm.not_mem_tick {body : Text} (h : Calm body) : '\x60' ∉ body := fun hm =>
  (h.passes _ hm).elim (by decide) (by decide)

/-- Separators, line comments and calm block comments. The last line comment may go to the end of
the text where `atEnd` allows it. -/
inductive Gap (atEnd : Bool) : Text → Prop
  | nil : Gap atEnd []
  | separator {c : Char} (hc : isSeparator c = true) {g : Text} (h : Gap atEnd g) :
      Gap atEnd (c :: g)
  | line {body g : Text} (hbody : '\n' ∉ body) (h : Gap atEnd g) :
      Gap atEnd ('-' :: '-' :: (body ++ '\n' :: g))
  | block {body g : Text} (hbody : Calm body) (h : Gap atEnd g) :
      Gap atEnd ('/' :: '*' :: (body ++ '*' :: '/' :: g))
  | last {body : Text} (hbody : '\n' ∉ body) (hend : atEnd = true) :
      Gap atEnd ('-' :: '-' :: body)

section
variable {atEnd : Bool} {g g' : Text}

theorem Gap.toEnd (h : Gap false g) : Gap true g := by
  induction h with
  | nil => exact .nil
  | separator hc _ ih => exact .separator hc ih
  | line hbody _ ih => exact .line hbody ih
  | block hbody _ ih => exact .block hbody ih
  | last _ hend => exact absurd hend (by simp)

/-- A gap begins with a separator, a dash or a slash. -/
theorem Gap.head (h : Gap atEnd g) :
    g = [] ∨ ∃ c t, g = c :: t ∧ (isSeparator c = true ∨ c = '-' ∨ c = '/') := by
  cases h with
  | nil => exact .inl rfl
  | separator hc _ => exact .inr ⟨_, _, rfl, .inl hc⟩
  | line _ _ => exact .inr ⟨_, _, rfl, .inr (.inl rfl)⟩
  | block _ _ => exact .inr ⟨_, _, rfl, .inr (.inr rfl)⟩
  | last _ _ => exact .inr ⟨_, _, rfl, .inr (.inl rfl)⟩

theorem isSeparator_ne_tick {c : Char} (h : isSeparator c = true) : c ≠ '\x60' := by
  rintro rfl
  exact absurd h (by decide)

theorem unticked_cons_of_ne {c : Char} (hc : c ≠ '\x60') (t : Text) :
    unticked (c :: t) = c :: unticked t :=
  List.filter_cons_of_pos (by simpa using hc)

theorem Calm.unticked_block {body : Text} (h : Calm body) (g : Text) :
    unticked ('/' :: '*' :: (body ++ '*' :: '/' :: g)) =
      '/' :: '*' :: (body ++ '*' :: '/' :: unticked g) := by
  rw [unticked_cons_of_ne (by decide), unticked_cons_of_ne (by decide), Script.unticked_append,
    Script.unticked_of_not_mem h.not_mem_tick, unticked_cons_of_ne (by decide),
    unticked_cons_of_ne (by decide)]

private theorem Gap.unticked (h : Gap atEnd g) : Gap atEnd (unticked g) := by
  have hline : ∀ {body : Text}, '\n' ∉ body → '\n' ∉ Script.unticked body :=
    fun hbody hm => hbody (List.mem_of_mem_filter hm)
  induction h with
  | nil => exact .nil
  | separator hc _ ih =>
    rw [unticked_cons_of_ne (isSeparator_ne_tick hc)]
    exact .separator hc ih
  | @line body g hbody _ ih =>
    rw [unticked_cons_of_ne (by decide), unticked_cons_of_ne (by decide), Script.unticked_append,
      unticked_cons_of_ne (by decide)]
    exact .line (hline hbody) ih
  | block hbody _ ih =>
    rw [hbody.unticked_block]
    exact .block hbody ih
  | last hbody hend =>
    rw [unticked_cons_of_ne (by decide), unticked_cons_of_ne (by decide)]
    exact .last (hline hbody) hend

private theorem Gap.cleaned (h : Gap atEnd g) (hc : Cleaned g g') : Gap atEnd g' := by
  rcases hc with rfl | rfl
  · exact h
  · exact h.unticked

private theorem Gap.head?_cleaned (h : Gap atEnd g) (hc : Cleaned g g') : g'.head? = g.head? := by
  rcases hc with rfl | rfl
  · rfl
  · rcases h.head with rfl | ⟨c, t, rfl, hc⟩
    · rfl
    · have hne : c ≠ '\x60' := by
        rcases hc with hc | rfl | rfl
        · exact isSeparator_ne_tick hc
        · decide
        · decide
      rw [unticked_cons_of_ne hne]
      rfl

private theorem Gap.eq_nil_cleaned (h : Gap atEnd g) (hc : Cleaned g g') : g' = [] ↔ g = [] := by
  rw [← List.head?_eq_none_iff, h.head?_cleaned hc, List.head?_eq_none_iff]

end

/-- The words that a phrase begins with. -/
def openers : List String := ["timestamp", "character", "collate"]

/-- The words that a phrase ends with. -/
def closers : List String := ["zone", "varying"]

/-- The words of all phrases. -/
def phraseWords : List String :=
  ["timestamp", "with", "without", "time", "zone", "character", "varying", "collate", "pg_catalog"]

/-- The lexer takes the name for a word of a phrase if preparation does, and preparation takes no
part of the name for a word that begins or ends a phrase. -/
structure Unbroken (name : Text) : Prop where
  whole : ∀ w ∈ phraseWords, Text.fold name = Text.fold w.toList → Text.same name w.toList = true
  parts : ∀ a b, name = a ++ b → a ≠ [] → b ≠ [] →
    (a.getLast?.any Text.isWordPart = true ∨ ∀ w ∈ openers, Text.fold b ≠ Text.fold w.toList) ∧
      (b.head?.any Text.isWordPart = true ∨ ∀ w ∈ closers, Text.fold a ≠ Text.fold w.toList)

theorem unbroken_of_forall {name : Text} (h : ∀ c ∈ name, Text.isWordPart c = true)
    (hw : ∀ w ∈ phraseWords, Text.fold name = Text.fold w.toList →
      Text.same name w.toList = true) : Unbroken name where
  whole := hw
  parts := by
    rintro a b rfl ha hb
    obtain ⟨c, b, rfl⟩ := List.exists_cons_of_ne_nil hb
    refine ⟨.inl ?_, .inl (h c (by simp))⟩
    rw [List.getLast?_eq_some_getLast ha]
    exact h _ (List.mem_append_left _ (List.getLast_mem ha))

/-- A lexeme that hides no phrase. -/
structure Tame (l : Lexeme) : Prop where
  gap : Gap false l.gap
  mute : Mute (unticked l.gap)
  word : ∀ name, l.token = .word name → Unbroken name
  ticked : l.text.head? = some '\x60' →
    ∃ w, IsWord w ∧ l.token = .word w ∧ l.text = '\x60' :: (w ++ ['\x60'])
  quoted : ∀ v, l.token = .quoted '\"' v → l.text = Text.enclosed '\"' v ∧ '\x60' ∉ v ∧
    Mute l.text ∧ (Text.same (v.takeWhile (· != '\"')) "default" = true → '\"' ∉ v)
  punct : ∀ c, l.token = .punct c → Text.isBlank c = false
  delimiter : l.token.isWord "delimiter" = false

/-- The lexeme is read as it stands in front of the text, with its backticks and without. -/
structure Meets (l : Lexeme) (r : Text) : Prop where
  starts : startsToken (l.text ++ r) = true
  written : Token.Written r l.token l.text
  behind_tick : l.text.head? = some '\x60' → r.head?.any Token.continuesWord = false
  before_tick : l.text.getLast?.any Token.continuesWord = true → r.head? ≠ some '\x60'

/-- The lexemes of a source and the gap behind the last of them. -/
def Tidy : List Lexeme → Text → Prop
  | [], g => Gap true g ∧ Mute (unticked g)
  | l :: ls, g => Tame l ∧ Meets l (source ls ++ g) ∧ Tidy ls g

section
variable {l l' : Lexeme} {r r' : Text}

private theorem isWordStart_ne {c d : Char} (hc : Token.isWordStart c = true)
    (hd : Token.isWordStart d = false) : c ≠ d := by
  rintro rfl
  simp [hc] at hd

private theorem Tame.kept (h : Tame l) (hl : Kept Cleaned l l') : Tame l' where
  gap := h.gap.cleaned hl.gap
  mute := by
    rw [hl.gap.unticked_eq]
    exact h.mute
  word name hw := h.word name (hl.token ▸ hw)
  ticked ht := by
    rcases hl.text with he | ⟨hw, -, -⟩
    · rw [he] at ht ⊢
      rw [hl.token]
      exact h.ticked ht
    · obtain ⟨c, cs, he, hc, -⟩ := hw.exists_cons
      rw [he] at ht
      exact absurd (Option.some.inj ht) (isWordStart_ne hc (by decide))
  quoted v hv := by
    rcases hl.text with he | ⟨-, hw, -⟩
    · rw [he]
      exact h.quoted v (hl.token ▸ hv)
    · rw [hl.token, hw] at hv
      cases hv
  punct c hc := h.punct c (hl.token ▸ hc)
  delimiter := by
    rw [hl.token]
    exact h.delimiter

/-- The word that stands for a phrase hides no phrase. -/
private theorem tame_word {p : List String × String} (hp : p ∈ typePhrases) {g : Text}
    (hg : Gap false g) (hm : Mute (unticked g)) : Tame ⟨g, p.2.toList, .word p.2.toList⟩ where
  gap := hg
  mute := hm
  word name hw := by
    cases hw
    have hall : ∀ p ∈ typePhrases, p.2.toList.all Text.isWordPart = true ∧
        ∀ w ∈ phraseWords, Text.fold p.2.toList = Text.fold w.toList →
          Text.same p.2.toList w.toList = true := by
      decide +kernel
    exact unbroken_of_forall (List.all_eq_true.1 (hall p hp).1) (hall p hp).2
  ticked ht := by
    have hall : ∀ p ∈ typePhrases, p.2.toList.head? ≠ some '\x60' := by decide
    exact absurd ht (hall p hp)
  quoted v hv := by cases hv
  punct c hc := by cases hc
  delimiter := by
    have hall : ∀ p ∈ typePhrases, (Token.word p.2.toList).isWord "delimiter" = false := by decide
    exact hall p hp

/-- The second text begins with what the first does, or with a word where the first does, or with
what ends every token. -/
def MayReplace (r r' : Text) : Prop :=
  r'.head? = r.head? ∨ r.head?.any (fun c => Token.isWordStart c || c == '\x60') = true ∧
    r'.head?.any Token.isWordStart = true ∨ Token.breaks r' = true

/-- What a token looks at in the text after it. -/
structure Replaces (r r' : Text) : Prop where
  head : MayReplace r r'
  point : r.head? = some '.' → MayReplace r.tail r'.tail

private theorem MayReplace.any {p : Char → Bool} (h : MayReplace r r')
    (hw : ∀ c, Token.isWordStart c = true → p c = false)
    (hb : (" \t\r\n;,()/".toList.all fun c => !p c) = true) (hp : r.head?.any p = false) :
    r'.head?.any p = false := by
  rcases h with he | ⟨-, hw'⟩ | hbreaks
  · rw [he, hp]
  · cases r' with
    | nil => rfl
    | cons c t => exact hw c (by simpa using hw')
  · rcases Token.breaks_iff.1 hbreaks with rfl | ⟨c, t, rfl, hc⟩
    · rfl
    · exact Token.eq_false_of_isBreak hc hb

private theorem MayReplace.head?_ne {q : Char} (h : MayReplace r r')
    (hq : Token.isWordStart q = false) (hb : Token.isBreak q = false) (hr : r.head? ≠ some q) :
    r'.head? ≠ some q := by
  have hany : ∀ t : Text, t.head? ≠ some q ↔ t.head?.any (· == q) = false := by
    intro t
    cases t <;> simp
  rw [hany] at hr ⊢
  refine h.any (fun c hc => ?_) ?_ hr
  · simpa using isWordStart_ne hc hq
  · rw [List.all_eq_true]
    intro c hc
    have hmem : ∀ c ∈ " \t\r\n;,()/".toList, Token.isBreak c = true :=
      List.all_eq_true.1 (by decide)
    have : c ≠ q := by
      rintro rfl
      rw [hmem c hc] at hb
      exact absurd hb (by simp)
    simpa using this

private theorem takeWhile_eq_nil_iff {p : Char → Bool} {t : Text} :
    t.takeWhile p = [] ↔ t.head?.any p = false := by
  cases t with
  | nil => simp
  | cons c t => exact Text.takeWhile_eq_nil_cons

/-- A word ends in front of the second text if it ends in front of the first. -/
private theorem MayReplace.continuesWord (h : MayReplace r r') (ht : r.head? ≠ some '\x60')
    (hr : r.head?.any Token.continuesWord = false) : r'.head?.any Token.continuesWord = false := by
  rcases h with he | ⟨hw, -⟩ | hbreaks
  · rw [he, hr]
  · cases r with
    | nil => simp at hw
    | cons c t =>
      have hc : Token.isWordStart c = true := by
        have hne : c ≠ '\x60' := by simpa using ht
        simpa [hne] using hw
      rw [List.head?_cons, Option.any_some, Token.continuesWord_of_isWordStart hc] at hr
      exact absurd hr (by simp)
  · rcases Token.breaks_iff.1 hbreaks with rfl | ⟨c, t, rfl, hc⟩
    · rfl
    · exact Token.eq_false_of_isBreak (p := Token.continuesWord) hc (by decide)

private theorem Replaces.numeral (h : Replaces r r') {u : Text} (hu : Token.Numeral r u) :
    Token.Numeral r' u := by
  have hdigit : ∀ {r r' : Text}, MayReplace r r' → r.head?.any Char.isDigit = false →
      r'.head?.any Char.isDigit = false := fun h =>
    h.any (fun c hc => Token.isDigit_of_isWordStart hc) (by decide)
  cases hu with
  | whole hds hr =>
    refine .whole hds ?_
    have hhead := hdigit h.head (takeWhile_eq_nil_iff.1 (Token.takeWhile_isDigit_eq_nil hr))
    by_cases hpoint : r'.head? = some '.'
    · have hfirst : r.head? = some '.' := by
        by_contra hne
        exact h.head.head?_ne (by decide) (by decide) hne hpoint
      obtain ⟨t, rfl⟩ := List.head?_eq_some_iff.1 hfirst
      obtain ⟨t', rfl⟩ := List.head?_eq_some_iff.1 hpoint
      have ht : t.head?.any Char.isDigit = false := by
        cases t with
        | nil => rfl
        | cons c t => exact hr
      exact Token.extendsNumber_point (takeWhile_eq_nil_iff.2 (hdigit (h.point rfl) ht))
    · exact Token.extendsNumber_of_takeWhile (takeWhile_eq_nil_iff.2 hhead) hpoint
  | fraction hds hfs hne hr =>
    exact .fraction hds hfs hne (takeWhile_eq_nil_iff.2 (hdigit h.head (takeWhile_eq_nil_iff.1 hr)))

private theorem Replaces.written (h : Replaces r r') {k : Token} {u : Text}
    (hw : Token.Written r k u)
    (ht : u.getLast?.any Token.continuesWord = true → r.head? ≠ some '\x60') :
    Token.Written r' k u := by
  cases hw with
  | literal hq hs hr =>
    refine .literal hq hs (h.head.head?_ne ?_ ?_ hr)
    all_goals
      simp only [Token.isQuote, Bool.or_eq_true, beq_iff_eq] at hq
      rcases hq with (rfl | rfl) | rfl <;> decide
  | number hc hn => exact .number hc (h.numeral hn)
  | @word c cs hc hcs hr =>
    refine .word hc hcs (takeWhile_eq_nil_iff.2 (h.head.continuesWord (ht ?_) ?_))
    · rw [List.getLast?_eq_some_getLast (List.cons_ne_nil c cs)]
      exact Token.continuesWord_of_mem hc hcs _ (List.getLast_mem _)
    · exact takeWhile_eq_nil_iff.1 hr
  | cast => exact .cast
  | openParen => exact .openParen
  | closeParen => exact .closeParen
  | comma => exact .comma
  | punct hc hr => exact .punct hc fun he => h.head.head?_ne (by decide) (by decide) (hr he)

private theorem MayReplace.startsToken (h : MayReplace r r') {u : Text} (hu : u ≠ [])
    (hs : startsToken (u ++ r) = true) : startsToken (u ++ r') = true := by
  obtain ⟨c, u, rfl⟩ := List.exists_cons_of_ne_nil hu
  have hne : ∀ {d : Char}, Token.isWordStart d = false → Token.isBreak d = false →
      (u ++ r).head? ≠ some d → (u ++ r').head? ≠ some d := by
    intro d hd hb hn
    cases u with
    | nil => exact h.head?_ne hd hb hn
    | cons e u => exact hn
  simp only [Lexeme.startsToken, List.cons_append, Bool.and_eq_true, Bool.not_eq_true',
    Bool.and_eq_false_imp, beq_eq_false_iff_ne] at hs ⊢
  exact ⟨⟨hs.1.1, fun hc => hne (by decide) (by decide) (hs.1.2 hc)⟩,
    fun hc => hne (by decide) (by decide) (hs.2 hc)⟩

/-- A bare word where the lexeme is one, with backticks or without. -/
private theorem Meets.word (h : l.Meets r) (hr : MayReplace r r') {name : Text}
    (ht : l.token = .word name) {w g : Text} (hw : IsWord w) : Meets ⟨g, w, .word w⟩ r' := by
  have hends : r.head? ≠ some '\x60' ∧ r.head?.any Token.continuesWord = false := by
    rcases (ht ▸ h.written).of_word with ⟨hu, hname, hend⟩ | ⟨s, hu, -, hend⟩
    · refine ⟨h.before_tick ?_, takeWhile_eq_nil_iff.1 hend⟩
      obtain ⟨c, cs, rfl, hc, hcs⟩ := hname.exists_cons
      rw [hu, List.getLast?_eq_some_getLast (List.cons_ne_nil c cs)]
      exact Token.continuesWord_of_mem hc hcs _ (List.getLast_mem _)
    · exact ⟨hend, h.behind_tick (by rw [hu]; rfl)⟩
  refine ⟨hw.startsToken r', hw.written (takeWhile_eq_nil_iff.2 (hr.continuesWord hends.1 hends.2)),
    fun hb => ?_, fun _ => hr.head?_ne (by decide) (by decide) hends.1⟩
  obtain ⟨c, cs, rfl, hc, -⟩ := hw.exists_cons
  exact absurd (Option.some.inj hb) (isWordStart_ne hc (by decide))

theorem Meets.kept (h : l.Meets r) (hr : Replaces r r') (hl : Kept Cleaned l l') : l'.Meets r' := by
  rcases hl.text with he | ⟨hw, htoken, -⟩
  · obtain ⟨c, cs, hne, -⟩ := h.written.read
    refine ⟨?_, ?_, fun ht => ?_, fun ht => ?_⟩
    · rw [he]
      exact hr.head.startsToken (by simp [hne]) h.starts
    · rw [he, hl.token]
      exact hr.written h.written h.before_tick
    · rw [he] at ht
      obtain ⟨s, hs⟩ := List.head?_eq_some_iff.1 ht
      have hbehind := (Token.Written.of_isQuote (hs ▸ h.written) (by decide)).2
      exact hr.head.continuesWord hbehind (h.behind_tick ht)
    · rw [he] at ht
      exact hr.head.head?_ne (by decide) (by decide) (h.before_tick ht)
  · have hnew := h.word (g := l'.gap) hr.head htoken hw
    rw [← htoken, ← hl.token] at hnew
    exact hnew

end

section
variable {ps : List (List String × String)} {drops : Prop} {l l' : Lexeme} {ls ls' : List Lexeme}
  {g g' r r' : Text}

/-- No comment stands in front of a collation, and what follows a collation ends every token. -/
def CollationsApart (ls : List Lexeme) (g : Text) : Prop :=
  ∀ s, s <:+ ls → beginsCollation s = true →
    (∀ l ∈ s.head?, ∀ c ∈ l.gap, isSeparator c = true) ∧ Token.breaks (source (s.drop 4) ++ g) = true

instance (ls : List Lexeme) (g : Text) : Decidable (CollationsApart ls g) :=
  decidable_of_iff (∀ s ∈ ls.tails, beginsCollation s = true →
    (∀ l ∈ s.head?, l.gap.all isSeparator = true) ∧ Token.breaks (source (s.drop 4) ++ g) = true)
    (by simp [CollationsApart])

private theorem CollationsApart.of_append {u : List Lexeme} (h : CollationsApart (u ++ ls) g) :
    CollationsApart ls g := fun s hs => h s (hs.trans (List.suffix_append u ls))

private theorem MayReplace.breaks (h : MayReplace r r') (hr : Token.breaks r = true) :
    Token.breaks r' = true := by
  rcases h with he | ⟨hw, -⟩ | hb
  · rw [Token.breaks, he]
    exact hr
  · cases r with
    | nil => simp at hw
    | cons c t =>
      have hc : Token.isBreak c = true := by simpa [Token.breaks] using hr
      have hfalse := Token.eq_false_of_isBreak
        (p := fun c => Token.isWordStart c || c == '\x60') hc (by decide)
      exact absurd (hfalse.symm.trans hw) (by simp)
  · exact hb

/-- A text that begins with a word, be it between backticks. -/
def BeginsWord (t : Text) : Prop :=
  t.head?.any (fun c => Token.isWordStart c || c == '\x60') = true

private theorem BeginsWord.append (h : BeginsWord r) (t : Text) : BeginsWord (r ++ t) := by
  cases r with
  | nil => simp [BeginsWord] at h
  | cons c r => exact h

private theorem BeginsWord.head?_ne_point (h : BeginsWord r) : r.head? ≠ some '.' := by
  intro hr
  rw [BeginsWord, hr] at h
  exact absurd h (by decide)

private theorem Meets.beginsWord (h : l.Meets r) {w : String} (hl : l.token.isWord w = true) :
    BeginsWord l.text := by
  cases ht : l.token with
  | word name =>
    rcases (ht ▸ h.written).of_word with ⟨hu, hname, -⟩ | ⟨s, hu, -⟩
    · obtain ⟨c, cs, rfl, hc, -⟩ := hname.exists_cons
      simp [BeginsWord, hu, hc]
    · simp [BeginsWord, hu]
  | _ => simp [ht, Token.isWord] at hl

/-- A gap decides by itself what the token in front of it meets. -/
private theorem Gap.replaces {atEnd : Bool} (h : Gap atEnd g) (hc : Cleaned g g') (hne : g ≠ [])
    (r r' : Text) : Replaces (g ++ r) (g' ++ r') := by
  rcases h.head with rfl | ⟨c, t, rfl, hfirst⟩
  · exact absurd rfl hne
  obtain ⟨t', rfl⟩ := List.head?_eq_some_iff.1 (h.head?_cleaned hc)
  refine ⟨.inl rfl, fun hp => ?_⟩
  obtain rfl : c = '.' := Option.some.inj hp
  exact absurd hfirst (by decide)

private theorem Replaces.of_beginsWord (h : BeginsWord r)
    (hr : r'.head?.any Token.isWordStart = true) :
    Replaces r r' := ⟨.inr (.inl ⟨h, hr⟩), fun hp => absurd hp h.head?_ne_point⟩

private theorem head?_any_isWordStart {w : Text} (h : IsWord w) (t : Text) :
    (w ++ t).head?.any Token.isWordStart = true := by
  obtain ⟨c, cs, rfl, hc, -⟩ := h.exists_cons
  simpa using hc

theorem isWord_of_mem_typePhrases {p : List String × String} (hp : p ∈ typePhrases) :
    IsWord p.2.toList := by
  have hall : ∀ p ∈ typePhrases, IsWord p.2.toList := by decide
  exact hall p hp

/-- A character that begins no longer token is one. -/
theorem Token.Written.eq_punct {k : Token} {c : Char} {cs : Text} (h : Token.Written r k (c :: cs))
    (hc : Token.isOther c = true) (hcolon : c ≠ ':') : k = .punct c ∧ cs = [] := by
  simp only [Token.isOther, Bool.and_eq_true, Bool.not_eq_true', bne_iff_ne] at hc
  obtain ⟨⟨⟨⟨⟨hquote, hdigit⟩, hword⟩, hopen⟩, hclose⟩, hcomma⟩ := hc
  generalize hu : c :: cs = u at h
  cases h with
  | literal hq _ _ =>
    obtain ⟨rfl, -⟩ := List.cons.inj hu
    exact absurd (hquote.symm.trans hq) (by simp)
  | number hd _ =>
    obtain ⟨rfl, -⟩ := List.cons.inj hu
    exact absurd (hdigit.symm.trans hd) (by simp)
  | word hw _ _ =>
    obtain ⟨rfl, -⟩ := List.cons.inj hu
    exact absurd (hword.symm.trans hw) (by simp)
  | cast => exact absurd (List.cons.inj hu).1 hcolon
  | openParen => exact absurd (List.cons.inj hu).1 hopen
  | closeParen => exact absurd (List.cons.inj hu).1 hclose
  | comma => exact absurd (List.cons.inj hu).1 hcomma
  | punct =>
    obtain ⟨rfl, rfl⟩ := List.cons.inj hu
    exact ⟨rfl, rfl⟩

/-- A token in front of a source may stand in front of the rewritten source. -/
theorem Rewritten.replaces (h : Rewritten Cleaned ps drops ls ls') (hps : ps ⊆ typePhrases)
    (ht : Tidy ls g) (hg : Cleaned g g') (hc : drops → CollationsApart ls g) :
    Replaces (source ls ++ g) (source ls' ++ g') := by
  induction h with
  | nil =>
    by_cases hne : g = []
    · obtain rfl : g' = [] := (ht.1.eq_nil_cleaned hg).2 hne
      subst hne
      exact ⟨.inl rfl, fun hp => absurd hp (by simp)⟩
    · have := ht.1.replaces hg hne [] []
      simpa using this
  | @keep l l' ls ls' hl h ih =>
    have hrest := ih ht.2.2 fun hd => (hc hd).of_append (u := [l])
    rw [source_cons, source_cons, List.append_assoc, List.append_assoc]
    by_cases hne : l.gap = []
    · rw [hne, (ht.1.gap.eq_nil_cleaned hl.gap).2 hne, List.nil_append, List.nil_append]
      rcases hl.text with he | ⟨hw, -, he⟩
      · rw [he]
        obtain ⟨c, cs, htext, -⟩ := ht.2.1.written.read
        rw [htext]
        refine ⟨.inl rfl, fun hp => ?_⟩
        obtain rfl : c = '.' := Option.some.inj hp
        obtain ⟨-, rfl⟩ :=
          Token.Written.eq_punct (htext ▸ ht.2.1.written) (by decide) (by decide)
        exact hrest.head
      · refine .of_beginsWord ?_ ?_
        · simp [BeginsWord, he]
        · rw [List.append_assoc]
          exact head?_any_isWordStart hw _
    · have := ht.1.gap.replaces hl.gap hne (l.text ++ source ls ++ g)
        (l'.text ++ source ls' ++ g')
      simpa using this
  | @type p l run ls ls' g'' hp hspells hlen hgap h ih =>
    rw [List.cons_append] at ht
    rw [List.cons_append, source_cons, source_cons, List.append_assoc, List.append_assoc]
    by_cases hne : l.gap = []
    · rw [hne, (ht.1.gap.eq_nil_cleaned hgap).2 hne, List.nil_append, List.nil_append]
      obtain ⟨w, -, hw⟩ := isOneOf_of_spells hspells hlen l List.mem_cons_self
      refine .of_beginsWord ((ht.2.1.beginsWord hw).append _) ?_
      rw [List.append_assoc]
      exact head?_any_isWordStart (isWord_of_mem_typePhrases (hps hp)) _
    · have := ht.1.gap.replaces hgap hne (l.text ++ source (run ++ ls) ++ g)
        (p.2.toList ++ source ls' ++ g')
      simpa using this
  | @collation a b c d ls ls' hd hbegins h ih =>
    have hrest := ih ht.2.2.2.2.2.2.2.2 fun hd => (hc hd).of_append (u := [a, b, c, d])
    have hbreaks := hrest.head.breaks (hc hd _ (List.suffix_refl _) hbegins).2
    refine ⟨.inr (.inr hbreaks), fun hp => ?_⟩
    have hword := ht.2.1.beginsWord (isWord_of_beginsCollation hbegins)
    rw [source_cons, List.append_assoc] at hp
    rcases ht.1.gap.head with hnil | ⟨e, t, he, hfirst⟩
    · rw [hnil, List.nil_append, List.append_assoc] at hp
      exact absurd hp (hword.append _).head?_ne_point
    · rw [he] at hp
      obtain rfl : e = '.' := Option.some.inj hp
      exact absurd hfirst (by decide)

theorem Tidy.of_append {u : List Lexeme} (h : Tidy (u ++ ls) g) : Tidy ls g := by
  induction u with
  | nil => exact h
  | cons l u ih => exact ih h.2.2

/-- The last lexeme of a list is read as it stands in front of what follows. -/
private theorem Tidy.meets_getLast {us : List Lexeme} (h : Tidy (us ++ ls) g) :
    ∀ l ∈ us.getLast?, l.Meets (source ls ++ g) := by
  induction us with
  | nil => simp
  | cons u us ih =>
    cases us with
    | nil =>
      intro l hl
      obtain rfl : u = l := by simpa using hl
      exact h.2.1
    | cons v us =>
      intro l hl
      exact ih h.2.2 l (by simpa using hl)

/-- What preparation makes of a tidy source is tidy. -/
theorem Rewritten.tidy (h : Rewritten Cleaned ps drops ls ls') (hps : ps ⊆ typePhrases)
    (ht : Tidy ls g) (hg : Cleaned g g') (hc : drops → CollationsApart ls g) : Tidy ls' g' := by
  induction h with
  | nil =>
    refine ⟨ht.1.cleaned hg, ?_⟩
    rw [hg.unticked_eq]
    exact ht.2
  | @keep l l' ls ls' hl h ih =>
    have hrest : drops → CollationsApart ls g := fun hd => (hc hd).of_append (u := [l])
    exact ⟨ht.1.kept hl, ht.2.1.kept (h.replaces hps ht.2.2 hg hrest) hl, ih ht.2.2 hrest⟩
  | @type p l run ls ls' g'' hp hspells hlen hgap h ih =>
    have hrest : drops → CollationsApart ls g := fun hd => (hc hd).of_append (u := l :: run)
    have htail : Tidy ls g := ht.of_append
    have hfirst : Tame l := ht.1
    -- the word that stands for the phrase meets what the last word of the phrase meets
    obtain ⟨m, hm⟩ : ∃ m, (l :: run).getLast? = some m :=
      ⟨_, List.getLast?_eq_some_getLast (List.cons_ne_nil l run)⟩
    obtain ⟨w, -, hw⟩ := isOneOf_of_spells hspells hlen m (List.mem_of_getLast? hm)
    have hmeets := ht.meets_getLast m hm
    refine ⟨tame_word (hps hp) (hfirst.gap.cleaned hgap) ?_, ?_, ih htail hrest⟩
    · rw [hgap.unticked_eq]
      exact hfirst.mute
    · cases hk : m.token with
      | word name =>
        exact hmeets.word (h.replaces hps htail hg hrest).head hk
          (isWord_of_mem_typePhrases (hps hp))
      | _ => simp [hk, Token.isWord] at hw
  | @collation a b c d ls ls' hd hbegins h ih =>
    exact ih (ht.of_append (u := [a, b, c, d])) fun hd => (hc hd).of_append (u := [a, b, c, d])

end

section
variable {ps qs : List (List String × String)} {drops : Prop} {l l' l'' : Lexeme}
  {ls ls' ls'' us vs : List Lexeme}

theorem IsWord.head?_ne_tick {w : Text} (h : IsWord w) : w.head? ≠ some '\x60' := by
  obtain ⟨c, cs, rfl, hc, -⟩ := h.exists_cons
  exact fun ht => isWordStart_ne hc (by decide) (Option.some.inj ht)

private theorem Kept.trans (h : Kept Cleaned l l') (h' : Kept Cleaned l' l'') :
    Kept Cleaned l l'' where
  gap := h.gap.trans h'.gap
  token := h'.token.trans h.token
  text := by
    rcases h'.text with he | ⟨hw, htoken, he⟩
    · rw [he]
      exact h.text
    · rcases h.text with ht | ⟨hw', -, -⟩
      · exact .inr ⟨hw, h.token.symm.trans htoken, ht.symm.trans he⟩
      · exact absurd (by rw [he]; rfl) hw'.head?_ne_tick

theorem spells_congr {ws : List String} {as bs : List Lexeme}
    (h : as.map (·.token) = bs.map (·.token)) : spells ws as = spells ws bs := by
  induction ws generalizing as bs with
  | nil => rw [spells, spells]
  | cons w ws ih =>
    cases as with
    | nil =>
      obtain rfl : bs = [] := List.map_eq_nil_iff.1 h.symm
      rfl
    | cons a as =>
      obtain ⟨b, bs, rfl, hb, hbs⟩ := List.map_eq_cons_iff.1 h.symm
      rw [spells, spells, hb, ih hbs.symm]

/-- Lexemes that stand for no phrase were there before. -/
private theorem Rewritten.exists_append (h : Rewritten Cleaned ps False ls (v ++ vs))
    (hv : ∀ u ∈ v, ∀ p ∈ ps, u.token ≠ .word p.2.toList) :
    ∃ as bs, ls = as ++ bs ∧ List.Forall₂ (Kept Cleaned) as v ∧
      Rewritten Cleaned ps False bs vs := by
  induction v generalizing ls with
  | nil => exact ⟨[], ls, rfl, .nil, h⟩
  | cons u v ih =>
    rw [List.cons_append] at h
    generalize hx : u :: (v ++ vs) = xs at h
    cases h with
    | nil => cases hx
    | @keep l l' ls ls' hl h =>
      obtain ⟨rfl, rfl⟩ := List.cons.inj hx
      obtain ⟨as, bs, rfl, has, hbs⟩ := ih h fun m hm => hv m (List.mem_cons_of_mem u hm)
      exact ⟨l :: as, bs, rfl, .cons hl has, hbs⟩
    | type hp =>
      obtain ⟨rfl, -⟩ := List.cons.inj hx
      exact absurd rfl (hv _ List.mem_cons_self _ hp)
    | collation hd => exact hd.elim

private theorem map_token_of_forall₂ {as us : List Lexeme} (h : List.Forall₂ (Kept Cleaned) as us) :
    as.map (·.token) = us.map (·.token) := by
  induction h with
  | nil => rfl
  | cons h _ ih => rw [List.map_cons, List.map_cons, ih, h.token]

/-- A collation was there before. -/
theorem Rewritten.exists_collation {a b c d : Lexeme}
    (h : Rewritten Cleaned ps False ls (a :: b :: c :: d :: ls')) (hps : ps ⊆ typePhrases)
    (hbegins : beginsCollation [a, b, c, d] = true) :
    ∃ a' b' c' d' bs, ls = a' :: b' :: c' :: d' :: bs ∧ Kept Cleaned a' a ∧
      beginsCollation [a', b', c', d'] = true ∧ Rewritten Cleaned ps False bs ls' := by
  obtain ⟨ha, hb, hc, v, hd, -⟩ := collation_tokens hbegins
  obtain ⟨as, bs, rfl, has, hbs⟩ := h.exists_append (v := [a, b, c, d]) fun m hm p hp he => by
    have hall : ∀ p ∈ typePhrases, (Token.word p.2.toList).isWord "collate" = false ∧
        (Token.word p.2.toList).isWord "pg_catalog" = false := by decide
    obtain ⟨h₁, h₂⟩ := hall p (hps hp)
    simp only [List.mem_cons, List.not_mem_nil, or_false] at hm
    rcases hm with rfl | rfl | rfl | rfl
    · rw [he, h₁] at ha
      cases ha
    · rw [he, h₂] at hb
      cases hb
    · rw [he] at hc
      cases hc
    · rw [he] at hd
      cases hd
  cases has with
  | cons ha' has => cases has with
  | cons hb' has => cases has with
  | cons hc' has => cases has with
  | cons hd' has => cases has with
  | nil =>
    refine ⟨_, _, _, _, bs, rfl, ha', ?_, hbs⟩
    rw [← hbegins]
    simp only [beginsCollation, ha'.token, hb'.token, hc'.token, hd'.token]

/-- Two rewritings make one, if the second looks for no word that the first has put in. -/
theorem Rewritten.trans (h : Rewritten Cleaned ps False ls ls') (hps : ps ⊆ typePhrases)
    (h' : Rewritten Cleaned qs drops ls' ls'')
    (hnew : ∀ p ∈ ps, ∀ q ∈ qs, ∀ w ∈ q.1, (Token.word p.2.toList).isWord w = false) :
    Rewritten Cleaned (ps ++ qs) drops ls ls'' := by
  induction h' generalizing ls with
  | nil =>
    generalize hx : [] = xs at h
    cases h with
    | nil => exact .nil
    | collation hd => exact hd.elim
    | _ => cases hx
  | @keep l' l'' ls' ls'' hl h' ih =>
    generalize hx : l' :: ls' = xs at h
    cases h with
    | nil => cases hx
    | keep hl' h =>
      obtain ⟨rfl, rfl⟩ := List.cons.inj hx
      exact .keep (hl'.trans hl) (ih h)
    | @type p l run ls ls' g hp hspells hlen hg h =>
      obtain ⟨rfl, rfl⟩ := List.cons.inj hx
      obtain ⟨g'', u, k⟩ := l''
      obtain ⟨hgap, htoken, htext⟩ := hl
      obtain rfl : k = .word p.2.toList := htoken
      rcases htext with he | ⟨-, -, he⟩
      · obtain rfl : u = p.2.toList := he
        exact .type (List.mem_append_left qs hp) hspells hlen (hg.trans hgap) (ih h)
      · exact absurd (show p.2.toList.head? = some '\x60' by rw [show p.2.toList = _ from he]; rfl)
          (isWord_of_mem_typePhrases (hps hp)).head?_ne_tick
    | collation hd => exact hd.elim
  | @type q l' run ls' ls'' g hq hspells hlen hg h' ih =>
    obtain ⟨as, bs, rfl, has, hbs⟩ := h.exists_append fun m hm p hp he => by
      obtain ⟨w, hw, hword⟩ := isOneOf_of_spells hspells hlen m hm
      rw [he, hnew p hp q hq w hw] at hword
      exact absurd hword (by simp)
    have htokens := map_token_of_forall₂ has
    cases has with
    | @cons l _ as _ hl has =>
      refine .type (List.mem_append_right ps hq) ((spells_congr htokens).trans hspells) ?_
        (hl.gap.trans hg) (ih hbs)
      rw [← hlen, ← List.length_map (f := (·.token)), htokens, List.length_map]
  | @collation a b c d ls' ls'' hd hbegins h' ih =>
    obtain ⟨a', b', c', d', bs, rfl, -, hbegins', hbs⟩ := h.exists_collation hps hbegins
    exact .collation hd hbegins' (ih hbs)

end

end Lexeme

end TableDialects
