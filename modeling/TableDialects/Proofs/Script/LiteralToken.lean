import TableDialects.Proofs.Script.ByteScan
import TableDialects.Proofs.Script.Literal
import TableDialects.Proofs.Token.Span

/-!
# Literals as tokens

Preparation and the lexer agree on what a literal is. Wherever every quote is closed, no name in
double quotes has an escape and no block comment begins, the literal segments of a script are its
tokens in single quotes.
-/
namespace TableDialects

namespace Token

/-- Whether the token is the text between two `q`. -/
def isQuoted (q : Char) : Token → Bool
  | .quoted c _ => c == q
  | _ => false

/-- A quote that is never closed. -/
def isOpenQuote : Token → Bool
  | .punct c => isQuote c
  | _ => false

end Token

namespace Lexeme

section
variable {atEnd : Bool} {g : Text}

/-- Without carriage returns and block comments, what the lexer skips is a gap. -/
theorem Skipped.gap (h : Skipped atEnd g) (hreturn : '\r' ∉ g) (hblock : ¬['/', '*'] <:+: g) :
    Gap atEnd g := by
  induction h with
  | nil => exact .nil
  | @separator c hc g _ ih =>
    have hsuffix : g <:+ c :: g := List.suffix_cons c g
    exact .separator hc (ih (fun hm => hreturn (hsuffix.mem hm))
      fun hi => hblock (hi.trans hsuffix.isInfix))
  | @line body g hbody hend _ ih =>
    have hsuffix : g <:+ '-' :: '-' :: (body ++ g) := ⟨'-' :: '-' :: body, rfl⟩
    have hgap := ih (fun hm => hreturn (hsuffix.mem hm)) fun hi => hblock (hi.trans hsuffix.isInfix)
    rcases hend with ⟨t, rfl⟩ | ⟨t, rfl⟩ | ⟨rfl, hend⟩
    · cases hgap with
      | separator _ hrest => exact .line hbody.1 hrest
    · exact absurd (hsuffix.mem (by simp)) hreturn
    · rw [List.append_nil]
      exact .last hbody.1 hend
  | @block body g _ _ _ => exact absurd ⟨[], body ++ '*' :: '/' :: g, rfl⟩ hblock

/-- No comment begins where the lexer reads a token. -/
theorem head?_ne_of_skipLength {c : Char} {cs : Text} (h : skipLength (c :: cs) = 0)
    (hreturn : '\r' ∉ cs) (hc : c = '-') : cs.head? ≠ some '-' := by
  rintro he
  obtain ⟨t, rfl⟩ := List.head?_eq_some_iff.1 he
  have hline := lineLength?_eq (t := t) fun hm => hreturn (List.mem_cons_of_mem _ hm)
  subst hc
  simp [skipLength, hline] at h

end

/-- The slices of a source at its texts in single quotes. -/
def literalSlices (t : Text) : List (Option Text) :=
  (((spans 0 (tokenize t)).zip (tokenize t)).filter (·.2.token.isQuoted '\'')).map
    fun p => Text.slice? t p.1.1 p.1.2

/-- The slices are the sources of the tokens. -/
theorem literalSlices_eq (t : Text) :
    literalSlices t = ((tokenize t).filter (·.token.isQuoted '\'')).map (some ·.text) := by
  obtain ⟨hlen, hspanned, -⟩ := spans_tokenize t
  have hzip : ((spans 0 (tokenize t)).zip (tokenize t)).map (·.2) = tokenize t :=
    List.map_snd_zip hlen.ge
  calc literalSlices t
      = (((spans 0 (tokenize t)).zip (tokenize t)).filter (·.2.token.isQuoted '\'')).map
          fun p => some p.2.text :=
        List.map_congr_left fun p hp => (hspanned p (List.mem_of_mem_filter hp)).slice
    _ = (((spans 0 (tokenize t)).zip (tokenize t)).map (·.2) |>.filter
          (·.token.isQuoted '\'')).map (some ·.text) := by
        rw [List.filter_map, List.map_map]
        rfl
    _ = ((tokenize t).filter (·.token.isQuoted '\'')).map (some ·.text) := by rw [hzip]

end Lexeme

namespace Script

open Lexeme Segment

/-- The script has neither carriage returns nor block comments, closes each quote and has no
escapes in double quotes. -/
structure Plain (t : Text) : Prop where
  noReturn : '\r' ∉ t
  noBlock : ¬['/', '*'] <:+: t
  closed : ∀ l ∈ tokenize t, l.token.isOpenQuote = false
  unescaped : ∀ l ∈ tokenize t, l.token.isQuoted '\"' = true → '\\' ∉ l.text

/-- The texts of the literal segments, in order. -/
def literals (ss : List Segment) : List Text := (ss.filter (·.isLiteral)).map (·.text)

private theorem literals_prepend (u r : Text) :
    literals (prepend u (split r)) = literals (split r) := by
  obtain ⟨v, ss, h⟩ := exists_split r
  rw [h]
  rfl

/-- What is in front of a text without literals of its own adds no literal. -/
theorem literals_append {u r : Text} (h : Inert u r) :
    literals (split (u ++ r)) = literals (split r) := by
  rw [h.split, literals_prepend]

/-- A token adds itself to the literals just if it is a text in single quotes. -/
theorem literals_token {k : Token} {s r : Text} (h : Token.Written r k s)
    (hescape : k.isQuoted '\"' = true → '\\' ∉ s) (hline : s = ['-'] → r.head? ≠ some '-')
    (hblock : s = ['/'] → r.head? ≠ some '*') :
    literals (split (s ++ r)) =
      if k.isQuoted '\'' then s :: literals (split r) else literals (split r) := by
  by_cases hk : k.isQuoted '\'' = true
  · obtain ⟨v, rfl⟩ : ∃ v, k = .quoted '\'' v := by
      cases k <;> simp_all [Token.isQuoted]
    obtain ⟨-, u, rfl, hquotes, hhead⟩ := h.of_quoted
    rw [if_pos hk, List.cons_append, split_quote, literalLength_quotes hquotes hhead,
      List.take_left, List.drop_left]
    rfl
  · have hcode : ∀ v, k ≠ .quoted '\'' v := by
      rintro v rfl
      exact hk rfl
    have hdouble : ∀ v, k = .quoted '\"' v → s = Text.enclosed '\"' v := by
      rintro v rfl
      obtain ⟨-, u, rfl, hquotes, -⟩ := h.of_quoted
      rw [hquotes.eq_doubled (.inr fun hm => hescape rfl (List.mem_cons_of_mem _ hm))]
      rfl
    rw [if_neg hk]
    exact literals_append (inert_of_written h hcode hdouble hline hblock)

private theorem Plain.rest {t r : Text} {l : Lexeme} (h : Plain t)
    (ht : tokenize t = l :: tokenize r) (hr : r <:+ t) : Plain r where
  noReturn hm := h.noReturn (hr.mem hm)
  noBlock hi := h.noBlock (hi.trans hr.isInfix)
  closed m hm := h.closed m (ht ▸ List.mem_cons_of_mem l hm)
  unescaped m hm := h.unescaped m (ht ▸ List.mem_cons_of_mem l hm)

/-- The first token of a plain script adds itself to the literals of what follows it just if it is
a text in single quotes. -/
theorem Plain.literals_read {t cs : Text} {c : Char} (h : Plain t) (hd : skip t = c :: cs)
    (ht : tokenize t = ⟨t.take (gapLength t), (Token.read c cs).text, (Token.read c cs).token⟩ ::
      tokenize (Token.read c cs).rest) :
    literals (split (c :: cs)) =
      if (Token.read c cs).token.isQuoted '\'' then
        (Token.read c cs).text :: literals (split (Token.read c cs).rest)
      else literals (split (Token.read c cs).rest) := by
  have hskip : skipLength (c :: cs) = 0 := skipLength_of_gapLength (hd ▸ gapLength_skip t)
  have hsuffix : c :: cs <:+ t := hd ▸ List.drop_suffix _ t
  have hclosed : (Token.read c cs).token.isOpenQuote = false :=
    h.closed _ (ht ▸ List.mem_cons_self)
  obtain ⟨hread, hwritten⟩ := @Token.written_read c cs fun q hq he => by
    rw [he, Token.isOpenQuote, hq] at hclosed
    cases hclosed
  rw [hread]
  refine literals_token hwritten (h.unescaped _ (ht ▸ List.mem_cons_self)) ?_ ?_
  · intro he
    rw [he, List.singleton_append, List.cons.injEq] at hread
    rw [← hread.2]
    exact head?_ne_of_skipLength hskip
      (fun hm => h.noReturn (hsuffix.mem (List.mem_cons_of_mem c hm))) hread.1
  · intro he hhead
    obtain ⟨u, hu⟩ := List.head?_eq_some_iff.1 hhead
    rw [he, hu] at hread
    exact h.noBlock (List.IsInfix.trans ⟨[], u, hread.symm⟩ hsuffix.isInfix)

/-- The literals of a plain script are its tokens in single quotes. -/
theorem Plain.literals_eq {t : Text} (h : Plain t) :
    literals (split t) = ((tokenize t).filter (·.token.isQuoted '\'')).map (·.text) := by
  induction hn : t.length using Nat.strongRecOn generalizing t with
  | ind n ih =>
    have hsource : t = t.take (gapLength t) ++ skip t := (List.take_append_drop _ _).symm
    have hgapped : t.take (gapLength t) <:+: t := (List.take_prefix _ t).isInfix
    have hreturn : '\r' ∉ t.take (gapLength t) := fun hm => h.noReturn (List.mem_of_mem_take hm)
    have hblock : ¬['/', '*'] <:+: t.take (gapLength t) := fun hi => h.noBlock (hi.trans hgapped)
    cases hd : skip t with
    | nil =>
      have hgap : Gap true (t.take (gapLength t)) := (skipped_gap fun _ => rfl).gap hreturn hblock
      have hcode := literals_append (hgap.inert (r := []) fun _ => rfl)
      rw [hd] at hsource
      rw [← hsource] at hcode
      rw [hcode, tokenize, lex_of_drop_nil hd, split_nil]
      rfl
    | cons c cs =>
      have hgap : Gap false (t.take (gapLength t)) :=
        (skipped_gap fun he => by rw [hd] at he; cases he).gap hreturn hblock
      have htokens : tokenize t =
          ⟨t.take (gapLength t), (Token.read c cs).text, (Token.read c cs).token⟩ ::
            tokenize (Token.read c cs).rest := by
        rw [tokenize, lex_of_drop_cons hd]
        rfl
      have hsuffix : c :: cs <:+ t := hd ▸ List.drop_suffix _ t
      have hrest : (Token.read c cs).rest <:+ c :: cs :=
        ⟨(Token.read c cs).text, (Token.source_read c cs).symm⟩
      have hlen : (Token.read c cs).rest.length < n := by
        have h₁ := Token.length_rest_read c cs
        have h₂ := hsuffix.length_le
        rw [List.length_cons] at h₂
        omega
      have hih := ih _ hlen (h.rest htokens (hrest.trans hsuffix)) rfl
      calc literals (split t)
          = literals (split (c :: cs)) := by
            rw [← hd, ← literals_append (hgap.inert (r := skip t) (by simp)), ← hsource]
        _ = ((tokenize t).filter (·.token.isQuoted '\'')).map (·.text) := by
            rw [h.literals_read hd htokens, hih, htokens, List.filter_cons]
            split <;> rfl

/-- Code stands in front of the literals, between two of them and after the last. -/
theorem exists_parts (t : Text) : ∃ (code : Text) (parts : List (Text × Text)),
    split t = ⟨false, code⟩ :: parts.flatMap fun p => [⟨true, p.1⟩, ⟨false, p.2⟩] := by
  induction hn : t.length using Nat.strongRecOn generalizing t with
  | ind n ih =>
    cases hd : t.drop (codeLength t) with
    | nil => exact ⟨_, [], split_of_drop_nil hd⟩
    | cons c cs =>
      have hlen : (cs.drop (literalLength cs)).length < n := by
        have := congrArg List.length hd
        rw [List.length_drop, List.length_cons] at this
        rw [List.length_drop]
        omega
      obtain ⟨code, parts, hrest⟩ := ih _ hlen _ rfl
      refine ⟨t.take (codeLength t), (c :: cs.take (literalLength cs), code) :: parts, ?_⟩
      rw [split_of_drop_cons hd, hrest]
      rfl

/-- The scan by bytes gives segments that make up the script, so each cut is between two
characters. In a plain script the literals among them are its tokens in single quotes, and
preparation rewrites just the code around these. -/
theorem split_literals (t : Text) :
    scan? t 0 0 = some (split t) ∧ (split t).flatMap (·.text) = t ∧
      (Plain t → (literals (split t)).map some = literalSlices t ∧
        ∃ (code : Text) (parts : List (Text × Text)), parts.map (some ·.1) = literalSlices t ∧
          t = code ++ parts.flatMap (fun p => p.1 ++ p.2) ∧
          prepare t = prepareCode code ++ parts.flatMap fun p => p.1 ++ prepareCode p.2) := by
  refine ⟨scan?_zero t, source_split t, fun h => ?_⟩
  have hslices : (literals (split t)).map some = literalSlices t := by
    rw [h.literals_eq, literalSlices_eq, List.map_map]
    rfl
  obtain ⟨code, parts, hsplit⟩ := exists_parts t
  have hliterals : literals (split t) = parts.map (·.1) := by
    rw [hsplit, literals, List.filter_cons_of_neg (by simp), List.filter_flatMap, List.map_flatMap]
    exact List.flatMap_pure_eq_map _ _
  refine ⟨hslices, code, parts, ?_, ?_, ?_⟩
  · rw [← hslices, hliterals, List.map_map]
    rfl
  · have hsource := source_split t
    rw [hsplit] at hsource
    simpa [List.flatMap_assoc] using hsource.symm
  · rw [prepare, hsplit]
    simp [List.flatMap_assoc]

theorem split_literals_doubled :
    let t : Text := "-- don't\n\"d'e\" int, \x60a\x60\x60'b\x60 text DEFAULT 'it''s \\' é' -- 'x"
    Plain t ∧ literals (split t) = ["'it''s \\' é'".toList] ∧
      prepare t = "-- don't\n\"d'e\" int, a'b text DEFAULT 'it''s \\' é' -- 'x".toList ∧
      (literals (split t)).map some = literalSlices t := by
  intro t
  have hplain : Plain t := by
    constructor
    all_goals decide +kernel
  exact ⟨hplain, by decide +kernel, by decide +kernel, ((split_literals t).2.2 hplain).1⟩

end Script

end TableDialects
