import TableDialects.Proofs.Report.Outcomes
import TableDialects.Proofs.Table.Splitting

/-!
# Block comments between statements

The lexer skips block comments and the splitter does not know them. A comment in which the splitter
finds no quote, no end of a statement, no line comment and no directive becomes a part of the
statement after it, where it bears on no table.
-/
namespace TableDialects

namespace Statement

private theorem not_pair_infix_lineFeeds {a b : Char} (ha : a ≠ '\n') (hb : b ≠ '\n') {t : Text}
    (h : ¬[a, b] <:+: t) : ¬[a, b] <:+: lineFeeds t := by
  have hhead : ∀ t : Text, (lineFeeds t).head? = some b → t.head? = some b := by
    intro t ht
    unfold lineFeeds at ht
    split at ht
    · simp at ht
    · exact absurd (Option.some.inj ht).symm hb
    · exact absurd (Option.some.inj ht).symm hb
    · exact ht
  fun_induction lineFeeds t with
  | case1 => exact h
  | case2 cs ih =>
    simp only [Text.pair_infix_cons, not_or] at h
    rw [Text.pair_infix_cons, not_or]
    exact ⟨fun he => ha he.1.symm, ih h.2.2⟩
  | case3 cs _ ih =>
    rw [Text.pair_infix_cons, not_or] at h
    rw [Text.pair_infix_cons, not_or]
    exact ⟨fun he => ha he.1.symm, ih h.2⟩
  | case4 c cs _ _ ih =>
    rw [Text.pair_infix_cons, not_or] at h
    rw [Text.pair_infix_cons, not_or]
    exact ⟨fun he => h.1 ⟨he.1, hhead cs he.2⟩, ih h.2⟩

private theorem mem_lineFeeds {c : Char} {t : Text} (h : c ∈ lineFeeds t) : c = '\n' ∨ c ∈ t := by
  fun_induction lineFeeds t with
  | case1 => exact absurd h List.not_mem_nil
  | case2 cs ih =>
    rcases List.mem_cons.1 h with h | h
    · exact .inl h
    · exact (ih h).imp id fun h => List.mem_cons_of_mem _ (List.mem_cons_of_mem _ h)
  | case3 cs _ ih =>
    rcases List.mem_cons.1 h with h | h
    · exact .inl h
    · exact (ih h).imp id (List.mem_cons_of_mem _)
  | case4 d cs _ _ ih =>
    rcases List.mem_cons.1 h with h | h
    · exact .inr (h ▸ List.mem_cons_self)
    · exact (ih h).imp id (List.mem_cons_of_mem _)

private theorem lineFeeds_append_cons {d : Char} (hd : d ≠ '\n') (u v : Text) :
    lineFeeds (u ++ d :: v) = lineFeeds u ++ lineFeeds (d :: v) := by
  fun_induction lineFeeds u with
  | case1 => rfl
  | case2 cs ih => simp [lineFeeds, ih]
  | case3 cs hcs ih =>
    rw [List.cons_append, lineFeeds, ih]
    · rfl
    · intro t ht
      cases cs with
      | nil => exact hd (List.cons.inj ht).1
      | cons e cs => exact hcs cs (by rw [(List.cons.inj ht).1])
  | case4 e cs h₁ h₂ ih =>
    rw [List.cons_append, lineFeeds, ih]
    · rfl
    · exact fun _ he => absurd he h₂
    · exact h₂

theorem linesOf_append (u t : Text) :
    linesOf (u ++ '\n' :: t) = Text.pieces (· == '\n') u ++ linesOf t := by
  have hne := @Text.pieces_ne_nil (· == '\n') t
  rw [linesOf, Text.pieces_append_cons (by simp), linesOf, List.getLast?_append_of_ne_nil _ hne,
    List.dropLast_append_of_ne_nil hne]
  split <;> rfl

private theorem pieces_append {cut : Char → Bool} {e : Text} (he : ∀ c ∈ e, cut c = false)
    (t : Text) :
    ∃ ks l, Text.pieces cut t = ks ++ [l] ∧ Text.pieces cut (t ++ e) = ks ++ [l ++ e] := by
  induction t with
  | nil => exact ⟨[], [], rfl, Text.pieces_of_forall he⟩
  | cons c t ih =>
    obtain ⟨ks, l, ht, hte⟩ := ih
    by_cases hc : cut c = true
    · exact ⟨[] :: ks, l, by simp [Text.pieces, hc, ht], by simp [Text.pieces, hc, hte]⟩
    · cases ks with
      | nil => exact ⟨[], c :: l, by simp [Text.pieces, hc, ht, Text.consHead],
          by simp [Text.pieces, hc, hte, Text.consHead]⟩
      | cons k ks => exact ⟨(c :: k) :: ks, l, by simp [Text.pieces, hc, ht, Text.consHead],
          by simp [Text.pieces, hc, hte, Text.consHead]⟩

/-- A line that the splitter takes as it is. -/
structure Quiet (line : Text) : Prop where
  passes : ∀ c ∈ line, passes c = true
  dashes : ¬['-', '-'] <:+: line
  directive : directive? line = none

/-- Lines inside a block comment, which the last of them closes. -/
inductive Inside : List Text → Prop
  | last {l : Text} (h : ¬['*', '/'] <:+: l) : Inside [l ++ ['*', '/']]
  | cons {l : Text} (h : ¬['*', '/'] <:+: l) {ls : List Text} (hs : Inside ls) : Inside (l :: ls)

private theorem inside_pieces {d : Text} (h : ¬['*', '/'] <:+: d) :
    Inside (Text.pieces (· == '\n') (d ++ ['*', '/'])) := by
  obtain ⟨ks, l, hd, he⟩ := @pieces_append (· == '\n') ['*', '/'] (by simp) d
  have hall : ∀ k ∈ ks ++ [l], ¬['*', '/'] <:+: k := fun k hk hp =>
    h (hp.trans (Text.infix_of_mem_pieces (hd ▸ hk)))
  rw [he]
  clear hd he
  induction ks with
  | nil => exact .last (hall l (by simp))
  | cons k ks ih =>
    exact .cons (hall k (by simp)) (ih fun m hm => hall m (List.mem_cons_of_mem k hm))

section
variable {k P : Text} {ls : List Text}

theorem ofLines_cons_blank (hb : Text.blank k = true) (hP : Text.blank P = false) :
    ofLines semicolon P none (k :: ls) = ofLines semicolon (P ++ ['\n']) none ls := by
  rw [ofLines, Text.trim_of_blank hb, hb, hP]
  rfl

private theorem Quiet.uncut (h : Quiet k) : Uncut semicolon k where
  quotes c hc := by
    have hp := h.passes c hc
    simp only [Statement.passes, Bool.and_eq_true, Bool.not_eq_true'] at hp
    exact hp.1.1
  dashes := h.dashes
  terminator ht := absurd (h.passes ';' (ht.subset List.mem_cons_self)) (by decide)
  directive := h.directive

private theorem Quiet.ofLines (h : Quiet k) (hb : Text.blank k = false) :
    ofLines semicolon P none (k :: ls) = ofLines semicolon (P ++ k ++ ['\n']) none ls := by
  rw [h.uncut.ofLines, kept, hb, if_neg Bool.false_ne_true, List.append_assoc]

/-- Whole lines of a block comment that is not closed yet. -/
def Unclosed (P : Text) : Prop := ∃ d, P = '/' :: '*' :: (d ++ ['\n']) ∧ ¬['*', '/'] <:+: d

/-- A block comment and the end of its last line. -/
def Closed (B : Text) : Prop := ∃ d, B = '/' :: '*' :: (d ++ ['*', '/', '\n']) ∧ ¬['*', '/'] <:+: d

theorem not_pair_infix_line {d l : Text} (hd : ¬['*', '/'] <:+: d) (hl : ¬['*', '/'] <:+: l) :
    ¬['*', '/'] <:+: d ++ '\n' :: l := by
  refine Text.not_pair_infix_append hd ?_ (by simp)
  rw [Text.pair_infix_cons]
  simpa using hl

private theorem Unclosed.append (hP : Unclosed P) (hk : ¬['*', '/'] <:+: k) :
    Unclosed (P ++ k ++ ['\n']) := by
  obtain ⟨d, rfl, hd⟩ := hP
  exact ⟨d ++ '\n' :: k, by simp, not_pair_infix_line hd hk⟩

private theorem Unclosed.closed (hP : Unclosed P) (hk : ¬['*', '/'] <:+: k) :
    Closed (P ++ (k ++ ['*', '/']) ++ ['\n']) := by
  obtain ⟨d, rfl, hd⟩ := hP
  exact ⟨d ++ '\n' :: k, by simp, not_pair_infix_line hd hk⟩

private theorem Unclosed.kept (hP : Unclosed P) (hk : ¬['*', '/'] <:+: k) :
    Unclosed (P ++ kept k) := by
  unfold Statement.kept
  split
  · simpa using hP.append (k := []) (by simp)
  · rw [← List.append_assoc]
    exact hP.append hk

/-- The lines of a comment go to the open statement, blank ones without their blanks. -/
theorem ofLines_inside (h : Inside ls) (hq : ∀ k ∈ ls, Quiet k) (hP : Unclosed P) :
    ∃ B, Closed B ∧
      ∀ rest, ofLines semicolon P none (ls ++ rest) = ofLines semicolon B none rest := by
  induction h generalizing P with
  | @last l hl =>
    have hb : Text.blank (l ++ ['*', '/']) = false := by simp [Text.blank, Text.isBlank]
    exact ⟨_, hP.closed hl, fun rest => (hq _ List.mem_cons_self).ofLines hb⟩
  | @cons k hk ks _ ih =>
    have hks : ∀ l ∈ ks, Quiet l := fun l hl => hq l (List.mem_cons_of_mem k hl)
    obtain ⟨B, hB, hrest⟩ := ih hks (hP.kept hk)
    exact ⟨B, hB, fun rest => (hq k List.mem_cons_self).uncut.ofLines.trans (hrest rest)⟩

end

/-- The splitter takes a comment of quiet lines for the beginning of a statement. -/
theorem ofLines_comment {d : Text} (hd : ¬['*', '/'] <:+: d)
    (hq : ∀ k ∈ Text.pieces (· == '\n') ('/' :: '*' :: (d ++ ['*', '/'])), Quiet k) :
    ∃ B, Closed B ∧ ∀ rest, ofLines semicolon [] none
        (Text.pieces (· == '\n') ('/' :: '*' :: (d ++ ['*', '/'])) ++ rest) =
      ofLines semicolon B none rest := by
  have hin := inside_pieces hd
  obtain ⟨p, ps, hps⟩ :=
    List.exists_cons_of_ne_nil (@Text.pieces_ne_nil (· == '\n') (d ++ ['*', '/']))
  have hpieces : Text.pieces (· == '\n') ('/' :: '*' :: (d ++ ['*', '/'])) =
      ('/' :: '*' :: p) :: ps := by
    simp [Text.pieces, hps, Text.consHead]
  rw [hpieces] at hq ⊢
  rw [hps] at hin
  have hfirst : ∀ rest, ofLines semicolon [] none ((('/' :: '*' :: p) :: ps) ++ rest) =
      ofLines semicolon ('/' :: '*' :: (p ++ ['\n'])) none (ps ++ rest) := fun rest =>
    (hq _ List.mem_cons_self).ofLines rfl
  cases hin with
  | @last l hl => exact ⟨_, ⟨l, by simp, hl⟩, hfirst⟩
  | cons hp hps =>
    obtain ⟨B, hB, hrest⟩ := ofLines_inside hps
      (fun k hk => hq k (List.mem_cons_of_mem _ hk)) ⟨p, rfl, hp⟩
    exact ⟨B, hB, fun rest => (hfirst rest).trans (hrest rest)⟩

end Statement

namespace Lexeme

private theorem blockLength?_append {d : Text} (h : ¬['*', '/'] <:+: d) (t : Text) :
    blockLength? (d ++ '*' :: '/' :: t) = some (d.length + 2) := by
  induction d with
  | nil => rfl
  | cons c d ih =>
    rw [Text.pair_infix_cons, not_or] at h
    have hne : ∀ u, c = '*' → d ++ '*' :: '/' :: t ≠ '/' :: u := by
      intro u hc hu
      cases d with
      | nil => simp at hu
      | cons e d => exact h.1 ⟨hc, by simpa using (List.cons.inj hu).1⟩
    rw [List.cons_append, blockLength?, ih h.2]
    · simp
    · exact hne

theorem gapLength_comment {d : Text} (h : ¬['*', '/'] <:+: d) (t : Text) :
    gapLength ('/' :: '*' :: (d ++ '*' :: '/' :: t)) = d.length + 4 + gapLength t := by
  have hskip : skipLength ('/' :: '*' :: (d ++ '*' :: '/' :: t)) = d.length + 4 := by
    rw [skipLength, blockLength?_append h]
    rfl
  rw [gapLength, hskip]
  simp

end Lexeme

namespace Table

/-- The gap in front of the first lexeme does not count. -/
theorem header?_congr {l l' : Lexeme} (h : l.token = l'.token) (ls : List Lexeme) :
    header? (l :: ls) = header? (l' :: ls) := by
  simp only [header?, h]

/-- Text that the lexer skips bears on no table. -/
theorem header?_skip {g t : Text} (hg : Lexeme.gapLength (g ++ t) = g.length + Lexeme.gapLength t) :
    header? (tokenize (g ++ t)) = header? (tokenize t) := by
  have hd : (g ++ t).drop (Lexeme.gapLength (g ++ t)) = t.drop (Lexeme.gapLength t) := by
    rw [hg, ← List.drop_drop, List.drop_left]
  cases ht : t.drop (Lexeme.gapLength t) with
  | nil =>
    rw [ht] at hd
    rw [tokenize, tokenize, Lexeme.lex_of_drop_nil ht, Lexeme.lex_of_drop_nil hd]
  | cons c cs =>
    rw [ht] at hd
    rw [tokenize, tokenize, Lexeme.lex_of_drop_cons ht, Lexeme.lex_of_drop_cons hd]
    exact header?_congr rfl _

/-- A blank that the lexer does not skip is a token by itself. -/
theorem read_blank {c : Char} (hb : Text.isBlank c = true) (cs : Text) :
    Token.read c cs = ⟨.punct c, [c], cs⟩ := by
  have hne : ∀ d : Char, Text.isBlank d = false → c ≠ d := by
    rintro d hd rfl
    exact absurd hb (by simp [hd])
  have hcontinues : Token.continuesWord c = false := by
    by_contra hc
    exact absurd (Token.isBlank_of_continuesWord (by simpa using hc)) (by simp [hb])
  have hdigit : c.isDigit = false := by
    by_contra hd
    exact absurd (Token.continuesWord_of_isDigit (by simpa using hd)) (by simp [hcontinues])
  have hstart : Token.isWordStart c = false := by
    by_contra hs
    exact absurd (Token.continuesWord_of_isWordStart (by simpa using hs))
      (by simp [hcontinues])
  have hquote : Token.isQuote c = false := by
    simp [Token.isQuote, hne '\'' (by decide), hne '\"' (by decide), hne '\x60' (by decide)]
  rw [Token.read_of_not_isQuote hquote, Token.readPlain, if_neg fun h => hne ':' (by decide) h.1]
  simp [hdigit, hstart, hne '(' (by decide), hne ')' (by decide), hne ',' (by decide)]

private theorem header?_blank_append {b : Text} (hb : Text.blank b = true) (t : Text) :
    header? (tokenize (b ++ t)) = header? (tokenize t) := by
  induction b with
  | nil => rfl
  | cons c b ih =>
    simp only [Text.blank, List.all_cons, Bool.and_eq_true] at hb
    rw [← ih hb.2, List.cons_append]
    by_cases hs : Lexeme.isSeparator c = true
    · refine header?_skip (g := [c]) ?_
      rw [List.singleton_append, Lexeme.gapLength_cons hs, Nat.add_comm]
      rfl
    · have hgap : Lexeme.gapLength (c :: (b ++ t)) = 0 := by
        refine Lexeme.gapLength_of_startsToken (Lexeme.startsToken_cons (by simpa using hs) ?_ ?_ _)
        · rintro rfl
          exact absurd hb.1 (by decide)
        · rintro rfl
          exact absurd hb.1 (by decide)
      have hd : (c :: (b ++ t)).drop (Lexeme.gapLength (c :: (b ++ t))) = c :: (b ++ t) := by
        rw [hgap, List.drop_zero]
      rw [tokenize, Lexeme.lex_of_drop_cons hd, read_blank hb.1, header?]
      rfl

private theorem result_congr {t t' : Text} (h : header? (tokenize t) = header? (tokenize t')) :
    (read t).result = (read t').result := by
  simp only [read, h]

end Table

namespace Statement

private theorem header?_trimEnd (t : Text) :
    Table.header? (tokenize (Text.trimEnd t)) = Table.header? (tokenize (Text.trim t)) := by
  obtain ⟨b, u, rfl, hb, hu⟩ := Text.exists_span Text.isBlank t
  have hblank : Text.blank b = true := List.all_eq_true.2 hb
  cases u with
  | nil =>
    have hend : Text.trimEnd b = [] := Text.trimEnd_append_blank hblank []
    rw [List.append_nil, hend, Text.trim_of_blank hblank]
  | cons c u =>
    have hc : Text.isBlank c = false := Text.takeWhile_eq_nil_cons.1 hu
    rw [Text.trimEnd_append_cons hc, Text.trim_blank_append hblank, Text.trim,
      Text.trimStart_cons hc, Text.trimEnd_cons hc]
    exact Table.header?_blank_append hblank _

private theorem header?_trim_comment {B : Text} (hB : Closed B) (P : Text) :
    Table.header? (tokenize (Text.trim (B ++ P))) = Table.header? (tokenize (Text.trim P)) := by
  obtain ⟨d, rfl, hd⟩ := hB
  have htrim : Text.trim ('/' :: '*' :: (d ++ ['*', '/', '\n']) ++ P) =
      '/' :: '*' :: (d ++ ['*', '/']) ++ Text.trimEnd ('\n' :: P) := by
    have h := Text.trimEnd_append_cons (c := '/') (by decide) ('/' :: '*' :: (d ++ ['*'])) ('\n' :: P)
    rw [List.cons_append, Text.trim, Text.trimStart_cons (by decide)]
    simpa using h
  rw [htrim, Table.header?_skip, header?_trimEnd]
  · exact congrArg (Table.header? <| tokenize ·) (Text.trim_blank_append (b := ['\n']) rfl P)
  · simpa [Nat.add_assoc] using Lexeme.gapLength_comment hd (Text.trimEnd ('\n' :: P))

/-- The tables that the statements define. -/
def tables (ss : List Statement) : List Table :=
  ss.filterMap fun s => (Table.read s.text).result.toOption

private theorem tables_append (ss ss' : List Statement) :
    tables (ss ++ ss') = tables ss ++ tables ss' :=
  List.filterMap_append

private theorem tables_ofScript (script : Text) :
    (Report.ofScript script).tables = tables (split script) := by
  rw [Report.ofScript, Report.tables_ofOutcomes, List.filterMap_map]
  rfl

section
variable {B : Text} (hB : Closed B) (term P : Text)
include hB

private theorem Closed.not_blank : Text.blank (B ++ P) = false := by
  obtain ⟨d, rfl, -⟩ := hB
  rfl

private theorem tables_closed : tables (closed term (B ++ P)) = tables (closed term P) := by
  have h := Table.result_congr (header?_trim_comment hB P)
  have hcomment : closed term (B ++ P) = [⟨Text.trim (B ++ P), term⟩] := by
    rw [closed, Closed.not_blank hB]
    rfl
  rw [hcomment, closed]
  by_cases hP : Text.blank P = true
  · have hnone : (Table.read []).result = .error .noTable := by decide +kernel
    rw [Text.trim_of_blank hP] at h
    simp [tables, h, hnone, hP, Except.toOption]
  · rw [if_neg hP]
    simp only [tables, List.filterMap_cons, h]

omit hB in
/-- A line that adds just blanks to a blank statement may as well be kept. -/
theorem ofLines_extended (rest : Text) (q quote : Option Char) (ls : List Text) :
    ofLines term (extended P rest q) quote ls = ofLines term (P ++ rest ++ ['\n']) quote ls := by
  unfold extended
  split
  · next h =>
    simp only [Bool.and_eq_true] at h
    have hall : Text.blank (P ++ rest ++ ['\n']) = true := by
      simp only [Text.blank_append, h.1.1, h.1.2]
      rfl
    rw [ofLines_of_blank term quote ls h.1.2, ofLines_of_blank term quote ls hall]
  · rfl

/-- A comment in front of the open statement bears on no table. -/
theorem tables_ofLines (quote : Option Char) (ls : List Text) :
    tables (ofLines term (B ++ P) quote ls) = tables (ofLines term P quote ls) := by
  induction ls generalizing term P quote with
  | nil => exact tables_closed hB [] P
  | cons line ls ih =>
    rw [ofLines, ofLines]
    by_cases hc : (quote.isNone && ("--".toList).isPrefixOf (Text.trim line)) = true
    · rw [if_pos hc, if_pos hc]
      exact ih term P quote
    rw [if_neg hc, if_neg hc]
    by_cases hb : (quote.isNone && Text.blank line) = true
    · have hline : ∀ P : Text, (if Text.blank P then P else P ++ ['\n']) = extended P [] none := by
        simp [extended, show Text.blank [] = true from rfl]
      rw [if_pos hb, if_pos hb, hline, hline, ofLines_extended, ofLines_extended,
        List.append_assoc B, List.append_assoc B]
      exact ih term _ quote
    rw [if_neg hb, if_neg hb]
    cases hd : (if quote.isNone then directive? line else none) with
    | some token => rfl
    | none =>
      dsimp only
      cases hk : (cut term quote line).closed with
      | nil =>
        dsimp only
        rw [ofLines_extended, ofLines_extended, List.append_assoc B, List.append_assoc B]
        exact ih term _ _
      | cons p ps =>
        have hp := tables_closed hB term (P ++ p)
        rw [← List.append_assoc] at hp
        simp only [tables_append, hp]

end

/-- The text of a block comment in which the splitter finds no quote, no end of a statement, no
line comment and no directive. -/
structure Inert (c : Text) : Prop where
  closed : ¬"*/".toList <:+: c
  quotes : ∀ q ∈ c, Token.isQuote q = false
  semicolons : ';' ∉ c
  dashes : ¬"--".toList <:+: c
  directives : ∀ line ∈ lines ("/*".toList ++ c ++ "*/".toList), directive? line = none

namespace Inert

variable {c : Text}

private theorem lines_eq (c : Text) :
    lines ("/*".toList ++ c ++ "*/".toList) =
      Text.pieces (· == '\n') ('/' :: '*' :: (lineFeeds c ++ ['*', '/'])) := by
  have h := lineFeeds_append_cons (d := '*') (by decide) c ['/']
  have hfeeds : lineFeeds ("/*".toList ++ c ++ "*/".toList) =
      '/' :: '*' :: (lineFeeds c ++ ['*', '/']) := by
    simpa [lineFeeds] using h
  obtain ⟨ks, l, -, hks⟩ :=
    @pieces_append (· == '\n') ['*', '/'] (by simp) ('/' :: '*' :: lineFeeds c)
  rw [List.cons_append, List.cons_append] at hks
  rw [lines, hfeeds, hks]
  simp

private theorem passes (h : Inert c) {d : Char} (hd : d ≠ '\n')
    (hmem : d ∈ '/' :: '*' :: (lineFeeds c ++ ['*', '/'])) : Statement.passes d = true := by
  simp only [List.mem_cons, List.mem_append, List.not_mem_nil, or_false] at hmem
  rcases hmem with rfl | rfl | hmem | rfl | rfl
  · rfl
  · rfl
  · have hmem : d ∈ c := (mem_lineFeeds hmem).resolve_left hd
    have hsemicolon : d ≠ ';' := by
      rintro rfl
      exact h.semicolons hmem
    simp [Statement.passes, h.quotes d hmem, hsemicolon, hd]
  · rfl
  · rfl

private theorem dashes_comment (h : Inert c) :
    ¬['-', '-'] <:+: '/' :: '*' :: (lineFeeds c ++ ['*', '/']) := by
  have hfeeds := not_pair_infix_lineFeeds (by decide) (by decide) h.dashes
  have hall := Text.not_pair_infix_append (u := ['*', '/']) hfeeds (by decide) (by decide)
  intro hp
  rw [Text.pair_infix_cons, Text.pair_infix_cons] at hp
  rcases hp with hp | hp | hp
  · exact absurd hp.1 (by decide)
  · exact absurd hp.1 (by decide)
  · exact hall hp

private theorem quiet (h : Inert c) {k : Text}
    (hk : k ∈ Text.pieces (· == '\n') ('/' :: '*' :: (lineFeeds c ++ ['*', '/']))) : Quiet k where
  passes d hmem :=
    h.passes (by simpa using Text.eq_false_of_mem_pieces hk d hmem)
      ((Text.infix_of_mem_pieces hk).subset hmem)
  dashes hp := h.dashes_comment (hp.trans (Text.infix_of_mem_pieces hk))
  directive := h.directives k (lines_eq c ▸ hk)

end Inert

/-- A comment in which the splitter finds nothing bears on no table of the script after it. -/
theorem tables_ofScript_comment {c : Text} (h : Inert c) (script : Text) :
    (Report.ofScript ("/*".toList ++ c ++ "*/\n".toList ++ script)).tables =
      (Report.ofScript script).tables := by
  have hfeeds : lineFeeds ("/*".toList ++ c ++ "*/\n".toList ++ script) =
      '/' :: '*' :: (lineFeeds c ++ ['*', '/']) ++ '\n' :: lineFeeds script := by
    have h := lineFeeds_append_cons (d := '*') (by decide) c ('/' :: '\n' :: script)
    simpa [lineFeeds] using h
  have hclosed := not_pair_infix_lineFeeds (by decide) (by decide) h.closed
  obtain ⟨B, hB, hrest⟩ := ofLines_comment hclosed fun k hk => h.quiet hk
  have htables := tables_ofLines hB semicolon [] none (linesOf (lineFeeds script))
  rw [List.append_nil] at htables
  rw [tables_ofScript, tables_ofScript, split, split, lines, hfeeds]
  change tables (ofLines semicolon [] none (linesOf _)) = _
  rw [linesOf_append, hrest, htables]
  rfl

/-- The comment has a blank line, which the splitter leaves out. -/
theorem tables_ofScript_comment_users :
    let comment : Text := " users\n \nof the shop "
    let script : Text := "CREATE TABLE users (id INT);"
    Inert comment ∧
      (Report.ofScript ("/*".toList ++ comment ++ "*/\n".toList ++ script)).tables =
        (Report.ofScript script).tables := by
  intro comment script
  have hquotes : comment.all (fun q => !Token.isQuote q) = true := by decide +kernel
  have h : Inert comment :=
    ⟨by decide +kernel, by simpa using hquotes, by decide +kernel, by decide +kernel,
      by decide +kernel⟩
  exact ⟨h, tables_ofScript_comment h script⟩

/-- The apostrophe opens a literal, and the second definition is lost in it. -/
theorem tables_ofScript_apostrophe :
    let comment : Text := " don't "
    let script : Text := "CREATE TABLE a (id INT);\nCREATE TABLE b (id INT);"
    ¬"*/".toList <:+: comment ∧
      (Report.ofScript ("/*".toList ++ comment ++ "*/\n".toList ++ script)).tables.map (·.name) =
        ["a".toList] ∧
      (Report.ofScript ("/*".toList ++ comment ++ "*/\n".toList ++ script)).tables ≠
        (Report.ofScript script).tables := by
  decide +kernel

end Statement

end TableDialects
