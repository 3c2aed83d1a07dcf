import TableDialects.Proofs.Script.Code
import TableDialects.Proofs.Script.Segment

/-!
# Prepared scripts

Preparation leaves literals alone and prepares the code between them. In a tidy source the literals
that it sees are the ones that the lexer reads, so the lexemes of the whole script are prepared.
-/
namespace TableDialects

/-- Without escapes, what stands for a value is the value with each inner quote written twice. -/
theorem Token.Quotes.eq_doubled {q : Char} {v s : Text} (h : Quotes q v s)
    (hs : q = '\x60' ∨ '\\' ∉ s) : s = Text.doubled q v ++ [q] := by
  induction h with
  | close => rfl
  | escape c d hc _ _ =>
    simp only [escapes, Bool.and_eq_true, beq_iff_eq, bne_iff_ne] at hc
    rcases hs with rfl | hs
    · exact absurd rfl hc.2
    · exact absurd (hc.1 ▸ List.mem_cons_self) hs
  | twice _ ih =>
    have hrest := ih (hs.imp_right fun h hm =>
      h (List.mem_cons_of_mem _ (List.mem_cons_of_mem _ hm)))
    rw [Text.doubled_cons, if_pos rfl, List.append_assoc, ← hrest]
    rfl
  | plain c _ hc _ ih =>
    have hrest := ih (hs.imp_right fun h hm => h (List.mem_cons_of_mem _ hm))
    rw [Text.doubled_cons, if_neg hc, List.append_assoc, ← hrest]
    rfl

namespace Lexeme

open Script (Mute Cleaned unticked)
open Segment (Inert)

section
variable {l : Lexeme} {ls : List Lexeme} {g r s : Text}

private theorem isQuote_of_isSeparator {c : Char} (h : isSeparator c = true) :
    Token.isQuote c = false ∧ c ≠ '-' ∧ c ≠ '/' := by
  simp only [isSeparator, Bool.or_eq_true, beq_iff_eq] at h
  rcases h with ((rfl | rfl) | rfl) | rfl <;> decide

private theorem isQuote_of_continuesWord {c : Char} (h : Token.continuesWord c = true ∨ c = '.') :
    Token.isQuote c = false ∧ c ≠ '-' ∧ c ≠ '/' := by
  have hword : ∀ d, Token.continuesWord d = false → d ≠ '.' → c ≠ d := by
    rintro d hd hp rfl
    rcases h with h | h
    · exact absurd (hd.symm.trans h) (by simp)
    · exact hp h
  refine ⟨?_, hword '-' (by decide) (by decide), hword '/' (by decide) (by decide)⟩
  simp [Token.isQuote, hword '\'' (by decide) (by decide), hword '\"' (by decide) (by decide),
    hword '\x60' (by decide) (by decide)]

theorem Gap.inert {atEnd : Bool} (h : Gap atEnd g) (hr : atEnd = true → r = []) : Inert g r := by
  induction h with
  | nil => exact Segment.inert_nil
  | @separator c hc g _ ih =>
    have hfirst : Inert [c] (g ++ r) :=
      Segment.inert_of_forall (by simpa using isQuote_of_isSeparator hc)
    exact hfirst.append ih
  | @line body g hbody _ ih =>
    have hlines : '-' :: '-' :: (body ++ '\n' :: g) = '-' :: '-' :: (body ++ ['\n']) ++ g := by simp
    rw [hlines]
    exact (Segment.inert_comment hbody).append ih
  | @block body g hbody _ ih =>
    have hassoc : '/' :: '*' :: (body ++ '*' :: '/' :: g) =
        '/' :: '*' :: (body ++ ['*', '/']) ++ g := by
      simp
    rw [hassoc]
    exact (Segment.inert_block hbody.ends).append ih
  | last hbody hend =>
    rw [hr hend]
    exact Segment.inert_last_comment hbody

/-- Code goes on over every token but a text in single quotes. -/
theorem inert_of_written {k : Token} {u : Text} (h : Token.Written r k u)
    (hcode : ∀ v, k ≠ .quoted '\'' v) (hdouble : ∀ v, k = .quoted '\"' v → u = Text.enclosed '\"' v)
    (hline : u = ['-'] → r.head? ≠ some '-') (hblock : u = ['/'] → r.head? ≠ some '*') :
    Inert u r := by
  cases h with
  | @literal q v s hq h _ =>
    by_cases htick : q = '\x60'
    · rw [h.eq_doubled (.inl htick)]
      exact Segment.inert_enclosed (.inl htick) v
    · rw [Token.ofLiteral, if_neg htick] at hcode hdouble
      have hq : q = '\"' := by
        have hsingle : q ≠ '\'' := fun he => hcode v (he ▸ rfl)
        simpa [Token.isQuote, htick, hsingle] using hq
      rw [hdouble v (hq ▸ rfl)]
      exact Segment.inert_enclosed (.inr rfl) v
  | number _ hn =>
    exact Segment.inert_of_forall fun c hc => isQuote_of_continuesWord (Token.mem_numeral hn c hc)
  | word hc hcs _ =>
    exact Segment.inert_of_forall fun c hm =>
      isQuote_of_continuesWord (.inl (Token.continuesWord_of_mem hc hcs c hm))
  | @punct c hc _ =>
    simp only [Token.isOther, Bool.and_eq_true, Bool.not_eq_true'] at hc
    exact Segment.inert_char hc.1.1.1.1.1 (fun he => hline (he ▸ rfl)) fun he => hblock (he ▸ rfl)
  | cast => exact Segment.inert_of_forall (List.forall_mem_cons.2 ⟨by decide, by simp; decide⟩)
  | _ => exact Segment.inert_of_forall (by simp; decide)

private theorem Tame.inert (h : l.Tame) (hm : l.Meets r) (hcode : l.IsCode) : Inert l.text r := by
  have hstarts : ∀ {c : Char}, l.text = [c] → (c = '-' → r.head? ≠ some '-') ∧
      (c = '/' → r.head? ≠ some '*') := by
    intro c hc
    have hstarts := hm.starts
    simp only [hc, startsToken, List.singleton_append, Bool.and_eq_true, Bool.not_eq_true',
      Bool.and_eq_false_imp, beq_eq_false_iff_ne, beq_iff_eq] at hstarts
    exact ⟨hstarts.1.2, hstarts.2⟩
  exact inert_of_written hm.written hcode (fun v hv => (h.quoted v hv).1)
    (fun he => (hstarts he).1 rfl) fun he => (hstarts he).2 rfl

private theorem Tidy.inert {as : List Lexeme} (h : Tidy (as ++ ls) g) (hcode : ∀ l ∈ as, l.IsCode) :
    Inert (source as) (source ls ++ g) := by
  induction as with
  | nil => exact Segment.inert_nil
  | cons a as ih =>
    obtain ⟨ha, has⟩ := List.forall_mem_cons.1 hcode
    rw [source_cons]
    refine (h.1.gap.inert (by simp)).append (Segment.Inert.append ?_ (ih h.2.2 has))
    rw [← List.append_assoc, ← source_append]
    exact h.1.inert h.2.1 ha

private theorem Replaces.of_append (r s : Text) : Replaces (r ++ s) r := by
  have hhead : ∀ r : Text, MayReplace (r ++ s) r := by
    intro r
    cases r with
    | nil => exact .inr (.inr rfl)
    | cons c r => exact .inl rfl
  refine ⟨hhead r, fun _ => ?_⟩
  cases r with
  | nil => exact .inr (.inr rfl)
  | cons c r => exact hhead r

private theorem breaks_of_append (h : Token.breaks (r ++ s) = true) : Token.breaks r = true := by
  cases r with
  | nil => rfl
  | cons c r => exact h

/-- The lexemes up to a tame one are tidy by themselves. -/
theorem Tidy.of_append_cons {as : List Lexeme} (h : Tidy (as ++ l :: ls) g) : Tidy as l.gap := by
  induction as with
  | nil => exact ⟨h.1.gap.toEnd, h.1.mute⟩
  | cons a as ih =>
    have hrest : source (as ++ l :: ls) ++ g =
        source as ++ l.gap ++ (l.text ++ (source ls ++ g)) := by
      simp
    have hreplaces := Replaces.of_append (source as ++ l.gap) (l.text ++ (source ls ++ g))
    rw [← hrest] at hreplaces
    exact ⟨h.1, h.2.1.kept hreplaces (.refl a), ih h.2.2⟩

private theorem CollationsApart.of_append_cons {as : List Lexeme}
    (h : CollationsApart (as ++ l :: ls) g) : CollationsApart as l.gap := by
  intro s hs hbegins
  obtain ⟨hdash, hbreaks⟩ := h (s ++ l :: ls)
    ((List.suffix_append_inj_of_length_eq rfl).2 ⟨hs, rfl⟩) (beginsCollation_append hbegins _)
  obtain ⟨a, b, c, d, t, rfl⟩ := exists_of_beginsCollation hbegins
  refine ⟨hdash, breaks_of_append (s := l.text ++ (source ls ++ g)) ?_⟩
  simpa using hbreaks

private theorem exists_literal (ls : List Lexeme) :
    (∀ l ∈ ls, l.IsCode) ∨ ∃ as l rest v, ls = as ++ l :: rest ∧ (∀ l ∈ as, l.IsCode) ∧
      l.token = .quoted '\'' v := by
  induction ls with
  | nil => exact .inl (by simp)
  | cons l ls ih =>
    by_cases hl : l.IsCode
    · rcases ih with hls | ⟨as, m, rest, v, rfl, has, hm⟩
      · exact .inl (List.forall_mem_cons.2 ⟨hl, hls⟩)
      · exact .inr ⟨l :: as, m, rest, v, rfl, List.forall_mem_cons.2 ⟨hl, has⟩, hm⟩
    · obtain ⟨v, hv⟩ : ∃ v, l.token = .quoted '\'' v := by simpa [IsCode] using hl
      exact .inr ⟨[], l, ls, v, rfl, by simp, hv⟩

private theorem prepare_of_code {t : Text} (h : Segment.codeLength t = t.length) :
    Script.prepare t = Script.prepareCode t := by
  rw [Script.prepare, Segment.split_of_drop_nil (by rw [h, List.drop_length]), h, List.take_length]
  simp

private theorem prepare_of_literal {t u : Text} (ht : Inert t ('\'' :: (u ++ r)))
    (hu : Segment.literalLength (u ++ r) = u.length) :
    Script.prepare (t ++ '\'' :: (u ++ r)) =
      Script.prepareCode t ++ '\'' :: u ++ Script.prepare r := by
  have hlen : Segment.codeLength (t ++ '\'' :: (u ++ r)) = t.length := by
    rw [show Segment.codeLength _ = _ from ht, Segment.codeLength, if_pos rfl, Nat.add_zero]
  have hdrop : (t ++ '\'' :: (u ++ r)).drop (Segment.codeLength (t ++ '\'' :: (u ++ r))) =
      '\'' :: (u ++ r) := by
    rw [hlen, List.drop_left]
  rw [Script.prepare, Segment.split_of_drop_cons hdrop, hlen, hu, List.take_left, List.take_left,
    List.drop_left, Script.prepare]
  simp

/-- A prepared script is the source of the prepared lexemes. -/
theorem Tidy.exists_prepare (h : Tidy ls g) (hc : CollationsApart ls g) :
    ∃ ls' g', Script.prepare (source ls ++ g) = source ls' ++ g' ∧ Prepared Cleaned ls ls' ∧
      Cleaned g g' := by
  induction hn : ls.length using Nat.strongRecOn generalizing ls with
  | ind n ih =>
    rcases exists_literal ls with hcode | ⟨as, l, rest, v, rfl, hcode, hl⟩
    · have hinert : Inert (source ls ++ g) [] := by
        have htidy : Tidy (ls ++ []) g := by rwa [List.append_nil]
        have hsource := htidy.inert hcode
        have hgap : Gap true g := (htidy.of_append (u := ls)).1
        exact Segment.Inert.append (by simpa using hsource) (hgap.inert fun _ => rfl)
      have hlen : Segment.codeLength (source ls ++ g) = (source ls ++ g).length := by
        rw [Inert, List.append_nil] at hinert
        rw [hinert, Segment.codeLength, Nat.add_zero]
      obtain ⟨ls', he, hrew⟩ := h.exists_prepareCode hcode hc
      exact ⟨ls', unticked g, (prepare_of_code hlen).trans he, hrew, .inr rfl⟩
    · have hrest : Tidy (l :: rest) g := h.of_append
      obtain ⟨-, s, hs, hquotes, hhead⟩ := (hl ▸ hrest.2.1.written).of_quoted
      obtain ⟨rest', g', he, hrew, hg⟩ := ih rest.length (by simp at hn; omega) hrest.2.2
        (fun t ht => hc t (ht.trans ⟨as ++ [l], by simp⟩)) rfl
      obtain ⟨as', hcode', has⟩ := h.of_append_cons.exists_prepareCode hcode hc.of_append_cons
      have hgap : Inert l.gap (l.text ++ (source rest ++ g)) := hrest.1.gap.inert (by simp)
      have hinert : Inert (source as ++ l.gap) ('\'' :: (s ++ (source rest ++ g))) := by
        have hsource := h.inert hcode
        rw [source_cons, hs] at hsource
        rw [hs] at hgap
        exact Segment.Inert.append (by simpa using hsource) hgap
      have hsource : source (as ++ l :: rest) ++ g =
          source as ++ l.gap ++ '\'' :: (s ++ (source rest ++ g)) := by
        simp [hs]
      refine ⟨as' ++ { l with gap := unticked l.gap } :: rest', g', ?_,
        has.append (.keep ⟨.inr rfl, rfl, .inl rfl⟩ hrew), hg⟩
      rw [hsource, prepare_of_literal hinert (Segment.literalLength_quotes hquotes hhead), he,
        hcode']
      simp [hs]

end

end Lexeme

end TableDialects
