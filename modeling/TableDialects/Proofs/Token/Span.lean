import TableDialects.Proofs.Statement.Groups
import TableDialects.Proofs.Text.Slice
import TableDialects.Proofs.Token.Capital

/-!
# Spans of tokens

The lexer loses nothing. The spans of the tokens lie one after the other in the source, what stands
between them is blank or a comment, and each token is read again from its own slice.
-/
namespace TableDialects

namespace Lexeme

/-- A text of separators, line comments and closed block comments. A line comment goes to the end
of its line or, where `atEnd` allows it, to the end of the text. -/
inductive Skipped (atEnd : Bool) : Text → Prop
  | nil : Skipped atEnd []
  | separator {c : Char} (hc : isSeparator c = true) {g : Text} (h : Skipped atEnd g) :
      Skipped atEnd (c :: g)
  | line {body g : Text} (hbody : '\n' ∉ body ∧ '\r' ∉ body)
      (hend : ['\n'] <+: g ∨ ['\r', '\n'] <+: g ∨ g = [] ∧ atEnd = true) (h : Skipped atEnd g) :
      Skipped atEnd ('-' :: '-' :: (body ++ g))
  | block {body g : Text} (hbody : ¬['*', '/'] <:+: body) (h : Skipped atEnd g) :
      Skipped atEnd ('/' :: '*' :: (body ++ '*' :: '/' :: g))

private theorem exists_of_lineLength? {t : Text} {n : Nat} (h : lineLength? t = some n) :
    ∃ body r, t = body ++ r ∧ n = body.length ∧ ('\n' ∉ body ∧ '\r' ∉ body) ∧
      (['\n'] <+: r ∨ ['\r', '\n'] <+: r ∨ r = []) := by
  fun_induction lineLength? t generalizing n with
  | case1 =>
    cases h
    exact ⟨[], [], rfl, rfl, by simp, .inr (.inr rfl)⟩
  | case2 cs =>
    cases h
    exact ⟨[], '\n' :: cs, rfl, rfl, by simp, .inl (by simp)⟩
  | case3 cs hcs =>
    cases h
    obtain ⟨t, rfl⟩ := List.head?_eq_some_iff.1 hcs
    exact ⟨[], '\r' :: '\n' :: t, rfl, rfl, by simp, .inr (.inl (by simp))⟩
  | case4 => cases h
  | case5 c cs hn hr ih =>
    obtain ⟨m, hm, rfl⟩ := Option.map_eq_some_iff.1 h
    obtain ⟨body, r, rfl, rfl, hbody, hend⟩ := ih hm
    refine ⟨c :: body, r, rfl, rfl, ?_, hend⟩
    simp only [List.mem_cons, not_or]
    exact ⟨⟨Ne.symm hn, hbody.1⟩, ⟨Ne.symm hr, hbody.2⟩⟩

/-- A block comment ends at its first closing mark. -/
theorem exists_of_blockLength? {t : Text} {n : Nat} (h : blockLength? t = some n) :
    ∃ body r, t = body ++ '*' :: '/' :: r ∧ n = body.length + 2 ∧ ¬['*', '/'] <:+: body := by
  fun_induction blockLength? t generalizing n with
  | case1 => cases h
  | case2 r =>
    cases h
    exact ⟨[], r, rfl, rfl, by simp⟩
  | case3 c cs hmark ih =>
    obtain ⟨m, hm, rfl⟩ := Option.map_eq_some_iff.1 h
    obtain ⟨body, r, rfl, rfl, hbody⟩ := ih hm
    refine ⟨c :: body, r, rfl, rfl, ?_⟩
    rw [List.infix_cons_iff]
    rintro (hp | hi)
    · rw [List.cons_prefix_cons] at hp
      obtain ⟨rfl, ⟨v, rfl⟩⟩ := hp
      exact hmark (v ++ '*' :: '/' :: r) rfl rfl
    · exact hbody hi

/-- The parts that a gap is made of. -/
theorem exists_of_skipLength {t : Text} {n : Nat} (h : skipLength t = n + 1) :
    (∃ c r, t = c :: r ∧ n = 0 ∧ isSeparator c = true) ∨
    (∃ body r, t = '-' :: '-' :: (body ++ r) ∧ n = body.length + 1 ∧
      ('\n' ∉ body ∧ '\r' ∉ body) ∧ (['\n'] <+: r ∨ ['\r', '\n'] <+: r ∨ r = [])) ∨
    ∃ body r, t = '/' :: '*' :: (body ++ '*' :: '/' :: r) ∧ n = body.length + 3 ∧
      ¬['*', '/'] <:+: body := by
  unfold skipLength at h
  split at h
  · next cs =>
    cases hl : lineLength? cs with
    | none => simp [hl] at h
    | some m =>
      obtain ⟨body, r, rfl, rfl, hbody, hend⟩ := exists_of_lineLength? hl
      rw [hl, Option.map_some, Option.getD_some] at h
      exact .inr (.inl ⟨body, r, rfl, (Nat.succ.inj h).symm, hbody, hend⟩)
  · next cs =>
    cases hl : blockLength? cs with
    | none => simp [hl] at h
    | some m =>
      obtain ⟨body, r, rfl, rfl, hbody⟩ := exists_of_blockLength? hl
      rw [hl, Option.map_some, Option.getD_some] at h
      exact .inr (.inr ⟨body, r, rfl, (Nat.succ.inj h).symm, hbody⟩)
  · next c cs _ _ =>
    split at h
    · next hc =>
      refine .inl ⟨c, cs, rfl, ?_, hc⟩
      omega
    · omega
  · omega

/-- What the lexer skips is blank or a comment. -/
theorem skipped_gap {t : Text} {atEnd : Bool} (h : skip t = [] → atEnd = true) :
    Skipped atEnd (t.take (gapLength t)) := by
  unfold skip at h
  fun_induction gapLength t with
  | case1 => exact .nil
  | case2 => exact .nil
  | case3 c cs n hn ih =>
    have hgap : Skipped atEnd ((cs.drop n).take (gapLength (cs.drop n))) := by
      refine ih fun hd => h ?_
      rw [Nat.add_right_comm, List.drop_succ_cons, ← List.drop_drop, hd]
    rw [Nat.add_right_comm, List.take_succ_cons, List.take_add]
    rcases exists_of_skipLength hn with ⟨d, r, ht, rfl, hd⟩ | ⟨body, r, ht, rfl, hbody, hend⟩ |
      ⟨body, r, ht, rfl, hbody⟩
    · cases ht
      exact .separator hd hgap
    · cases ht
      rw [List.drop_succ_cons, List.drop_left] at hgap h
      rw [List.take_succ_cons, List.take_left, List.drop_succ_cons, List.drop_left]
      refine .line hbody ?_ hgap
      rcases hend with ⟨v, rfl⟩ | ⟨v, rfl⟩ | rfl
      · rw [List.singleton_append, gapLength_cons (by rfl), List.take_succ_cons]
        exact .inl (by simp)
      · rw [List.cons_append, List.singleton_append, gapLength_cons (by rfl),
          gapLength_cons (by rfl), List.take_succ_cons, List.take_succ_cons]
        exact .inr (.inl (by simp))
      · refine .inr (.inr ⟨List.take_nil, h ?_⟩)
        simp
    · cases ht
      have hmark : '*' :: (body ++ '*' :: '/' :: r) = '*' :: (body ++ ['*', '/']) ++ r := by
        simp
      have hlen : body.length + 3 = ('*' :: (body ++ ['*', '/'])).length := by
        simp
      rw [hmark, hlen, List.drop_left] at hgap
      rw [hmark, hlen, List.take_left, List.drop_left, List.cons_append, List.append_assoc]
      exact .block hbody hgap

/-- A token that begins with a mark of a comment is that mark alone. -/
theorem text_read_mark {c : Char} (hc : c = '-' ∨ c = '/') (cs : Text) :
    (Token.read c cs).text = [c] := by
  have hw : Token.isWordStart c = false := by
    rcases hc with rfl | rfl <;> decide
  rcases hc with rfl | rfl <;> simp [Token.read, Token.isQuote, Token.readPlain, hw]

private theorem skipLength_eq_zero {c : Char} {u : Text} (hc : isSeparator c = false)
    (hu : c = '-' ∨ c = '/' → u = []) : skipLength (c :: u) = 0 := by
  rw [skipLength_cons, if_neg, if_neg, hc]
  · rfl
  · rintro ⟨rfl, h⟩
    simp [hu (.inr rfl)] at h
  · rintro ⟨rfl, h⟩
    simp [hu (.inl rfl)] at h

theorem isSeparator_of_skipLength {c : Char} {cs : Text} (h : skipLength (c :: cs) = 0) :
    isSeparator c = false := by
  by_contra hc
  have := gapLength_cons (by simpa using hc) cs
  rw [gapLength, h] at this
  simp at this

/-- A token is the only one of its own text. -/
theorem lex_alone {c : Char} {cs : Text} (h : skipLength (c :: cs) = 0) :
    lex (Token.read c cs).text = ([⟨[], (Token.read c cs).text, (Token.read c cs).token⟩], []) := by
  obtain ⟨u, hu, hread⟩ := Token.read_alone c cs
  have hskip : skipLength (c :: u) = 0 := by
    refine skipLength_eq_zero (isSeparator_of_skipLength h) fun hc => ?_
    rw [text_read_mark hc, List.cons.injEq] at hu
    exact hu.2.symm
  have hgap : gapLength (c :: u) = 0 := by
    rw [gapLength, hskip]
  have hlex := lex_of_drop_cons (t := c :: u) (by rw [hgap, List.drop_zero])
  rw [hread, hgap, lex_of_drop_nil List.drop_nil] at hlex
  rw [hu, hlex]
  rfl

/-- The text between two byte offsets is skipped. -/
def Skips (t : Text) (atEnd : Bool) (first last : Nat) : Prop :=
  ∃ g, Text.slice? t first last = some g ∧ Skipped atEnd g

/-- The lexeme takes the bytes of its span, and lexing these by themselves gives it again. -/
structure Spanned (t : Text) (span : Nat × Nat) (l : Lexeme) : Prop where
  lt : span.1 < span.2
  le : span.2 ≤ Text.utf8Length t
  slice : Text.slice? t span.1 span.2 = some l.text
  alone : tokenize l.text = [{ l with gap := [] }]
  span_alone : spans 0 (tokenize l.text) = [(0, span.2 - span.1)]

private theorem spanned_append {l : Lexeme} (u v : Text)
    (h : lex l.text = ([{ l with gap := [] }], [])) (hne : l.text ≠ []) :
    Spanned (u ++ l.text ++ v) (Text.utf8Length u, Text.utf8Length u + Text.utf8Length l.text) l where
  lt := Nat.lt_add_of_pos_right (Text.utf8Length_pos hne)
  le := by
    rw [Text.utf8Length_append, Text.utf8Length_append]
    exact Nat.le_add_right _ _
  slice := Text.slice?_append u l.text v
  alone := by rw [tokenize, h]
  span_alone := by
    rw [tokenize, h, Nat.add_sub_cancel_left]
    simp [spans]

private theorem skips_append {atEnd : Bool} (u : Text) {g : Text} (v : Text) (h : Skipped atEnd g) :
    Skips (u ++ g ++ v) atEnd (Text.utf8Length u) (Text.utf8Length u + Text.utf8Length g) :=
  ⟨g, Text.slice?_append u g v, h⟩

/-- The spans of the lexemes of `t` after the text `u`; the span before them ends there. -/
theorem spans_lex (t u : Text) (m : Nat) :
    let before := (m, Text.utf8Length u)
    let spans := spans (Text.utf8Length u) (lex t).1
    (∀ p ∈ spans.zip (lex t).1, Spanned (u ++ t) p.1 p.2) ∧
      (before :: spans).IsChain (fun a b => Skips (u ++ t) false a.2 b.1) ∧
      Skips (u ++ t) true (spans.getLastD before).2 (Text.utf8Length (u ++ t)) := by
  induction hn : t.length using Nat.strongRecOn generalizing t u m with
  | ind n ih =>
    cases hd : skip t with
    | nil =>
      have htail : Skipped true t := by
        have hgap : Skipped true (t.take (gapLength t)) := skipped_gap fun _ => rfl
        rwa [List.take_of_length_le (List.drop_eq_nil_iff.1 hd)] at hgap
      have hskips := skips_append u [] htail
      rw [List.append_nil, ← Text.utf8Length_append] at hskips
      rw [lex_of_drop_nil hd]
      exact ⟨by simp [spans], by simp [spans], hskips⟩
    | cons c cs =>
      have hsource : t = t.take (gapLength t) ++ ((Token.read c cs).text ++ (Token.read c cs).rest) := by
        rw [← Token.source_read, ← hd, skip, List.take_append_drop]
      have hgap : Skipped false (t.take (gapLength t)) := skipped_gap (by simp [hd])
      have halone := lex_alone (skipLength_of_gapLength (hd ▸ gapLength_skip t))
      have hlen : (Token.read c cs).rest.length < n := by
        have h₁ := Token.length_rest_read c cs
        have h₂ := (skip_suffix t).length_le
        rw [hd, List.length_cons] at h₂
        omega
      obtain ⟨v, hv, -⟩ := Token.read_alone c cs
      have hne : (Token.read c cs).text ≠ [] := by
        rw [hv]
        exact List.cons_ne_nil c v
      rw [lex_of_drop_cons hd]
      generalize t.take (gapLength t) = g at *
      generalize (Token.read c cs).text = s at *
      generalize (Token.read c cs).token = k at *
      generalize (Token.read c cs).rest = r at *
      have hgapped : u ++ t = u ++ g ++ (s ++ r) := by
        rw [hsource, List.append_assoc]
      have hjoined : u ++ t = u ++ g ++ s ++ r := by
        rw [hgapped, List.append_assoc (u ++ g)]
      have hspanned := spanned_append (l := ⟨g, s, k⟩) (u ++ g) r halone hne
      have hskips := skips_append u (s ++ r) hgap
      have hrest := ih r.length hlen r (u ++ g ++ s) (Text.utf8Length (u ++ g)) rfl
      simp only [Text.utf8Length_append, ← hjoined] at hspanned hrest
      rw [← hgapped] at hskips
      obtain ⟨hall, hchain, hlast⟩ := hrest
      refine ⟨?_, ?_, ?_⟩
      · rw [spans, List.zip_cons_cons, List.forall_mem_cons]
        exact ⟨hspanned, hall⟩
      · rw [spans, List.isChain_cons_cons]
        exact ⟨hskips, hchain⟩
      · rw [spans, List.getLastD_cons, Text.utf8Length_append]
        exact hlast

private theorem length_spans (n : Nat) (ls : List Lexeme) : (spans n ls).length = ls.length := by
  induction ls generalizing n with
  | nil => rfl
  | cons l ls ih => rw [spans, List.length_cons, List.length_cons, ih]

private theorem Skips.le {t : Text} {atEnd : Bool} {first last : Nat}
    (h : Skips t atEnd first last) : first ≤ last := by
  obtain ⟨g, hg, -⟩ := h
  obtain ⟨a, b, -, rfl, rfl⟩ := Text.slice?_eq_some_iff.1 hg
  exact Nat.le_add_right _ _

/-- The lexer loses nothing: the spans of the tokens lie one after the other within the source and
split no character, what stands before, between and after them is skipped, and the lexer takes
the text of each span for this one token. -/
theorem spans_tokenize (t : Text) :
    let spans := spans 0 (tokenize t)
    spans.length = (tokenize t).length ∧
      (∀ p ∈ spans.zip (tokenize t), Spanned t p.1 p.2) ∧
      ((0, 0) :: spans).IsChain (fun a b => a.2 ≤ b.1 ∧ Skips t false a.2 b.1) ∧
      Skips t true (spans.getLastD (0, 0)).2 (Text.utf8Length t) := by
  obtain ⟨hall, hchain, hlast⟩ := spans_lex t [] 0
  exact ⟨length_spans 0 _, hall, hchain.imp fun _ _ h => ⟨h.le, h⟩, hlast⟩

/-- A quote that is never closed takes one byte, a letter outside ASCII more than one. -/
example : spans 0 (tokenize "é 'b") = [(0, 2), (3, 4), (4, 5)] := by decide +kernel

end Lexeme

end TableDialects
