import TableDialects.Proofs.Script.Source
import TableDialects.Proofs.Statement.Comment
import TableDialects.Proofs.Statement.Groups
import TableDialects.Proofs.Token.Capital

/-!
# Gaps in the splitter

The splitter drops line comments and keeps block comments. What it leaves of a gap does not depend
on the backticks in it, and to the lexer it is a gap again.
-/
namespace TableDialects

namespace Text

/-- A text begins with its first word. -/
theorem words_append {u v : Text} (hne : u ≠ []) (hu : ∀ c ∈ u, isBlank c = false)
    (hv : v.head?.all isBlank = true) : words (u ++ v) = u :: words v := by
  cases v with
  | nil =>
    rw [List.append_nil, words_of_forall hne hu]
    rfl
  | cons c v =>
    have hc : isBlank c = true := by simpa using hv
    rw [words_append_cons hc, words_of_forall hne hu, ← List.singleton_append (x := c),
      words_blank_append (b := [c]) (by simpa [blank] using hc)]
    rfl

/-- The first word of a text that begins with blanks up to the character `c`. -/
theorem exists_words_cons {b : Text} {c : Char} (hb : blank b = true) (hc : isBlank c = false)
    (t : Text) : ∃ u v, t = u ++ v ∧ v.head?.all isBlank = true ∧
      words (b ++ c :: t) = (c :: u) :: words v := by
  obtain ⟨u, v, rfl, hu, hv⟩ := exists_span (fun d => !isBlank d) t
  have hbehind : v.head?.all isBlank = true := by
    cases v with
    | nil => rfl
    | cons d v => simpa using takeWhile_eq_nil_cons.1 hv
  refine ⟨u, v, rfl, hbehind, ?_⟩
  rw [words_blank_append hb, ← List.cons_append, words_append (List.cons_ne_nil c u) _ hbehind]
  exact List.forall_mem_cons.2 ⟨hc, by simpa using hu⟩

theorem isWordStart_of_same {u w : Text} (h : same u w = true)
    (hw : ∀ c ∈ w, Token.isWordStart c = true) : ∀ c ∈ u, Token.isWordStart c = true := by
  have hlower : ∀ c : Char, Token.isWordStart c.toLower = Token.isWordStart c :=
    apply_toLower Token.isWordStart (by decide)
  rw [same, beq_iff_eq] at h
  intro c hc
  have hm : c.toLower ∈ lowerAscii w := h ▸ List.mem_map_of_mem hc
  obtain ⟨d, hd, he⟩ := List.mem_map.1 hm
  rw [← hlower, ← he, hlower]
  exact hw d hd

end Text

theorem Statement.directive?_of_words {line u : Text} {ws : List Text}
    (h : Text.words line = u :: ws) (hu : Text.same u "delimiter" = false) :
    directive? line = none := by
  unfold directive?
  split
  · next keyword token hw =>
    rw [h] at hw
    obtain ⟨rfl, -⟩ := List.cons.inj hw
    rw [hu]
    rfl
  · rfl

namespace Script

theorem Cleaned.exists_cons {c : Char} {g g' : Text} (h : Cleaned (c :: g) g') (hc : c ≠ '\x60') :
    ∃ u, g' = c :: u ∧ Cleaned g u := by
  rcases h with rfl | rfl
  · exact ⟨g, rfl, .inl rfl⟩
  · exact ⟨unticked g, Lexeme.unticked_cons_of_ne hc g, .inr rfl⟩

private theorem Cleaned.exists_append {u v g' : Text} (h : Cleaned (u ++ v) g') :
    ∃ u' v', g' = u' ++ v' ∧ Cleaned u u' ∧ Cleaned v v' := by
  rcases h with rfl | rfl
  · exact ⟨u, v, rfl, .inl rfl, .inl rfl⟩
  · exact ⟨unticked u, unticked v, Script.unticked_append u v, .inr rfl, .inr rfl⟩

private theorem Cleaned.not_mem {u u' : Text} (h : Cleaned u u') {c : Char} (hc : c ∉ u) :
    c ∉ u' := by
  rcases h with rfl | rfl
  · exact hc
  · exact fun hm => hc (List.mem_of_mem_filter hm)

/-- A line comment with its line break, with backticks or without. -/
private theorem Cleaned.exists_line {body g g' : Text}
    (h : Cleaned ('-' :: '-' :: (body ++ '\n' :: g)) g') :
    ∃ body' u, g' = '-' :: '-' :: (body' ++ '\n' :: u) ∧ Cleaned body body' ∧ Cleaned g u := by
  obtain ⟨v, rfl, hv⟩ := h.exists_cons (by decide)
  obtain ⟨w, rfl, hw⟩ := hv.exists_cons (by decide)
  obtain ⟨body', x, rfl, hbody, hx⟩ := hw.exists_append
  obtain ⟨u, rfl, hu⟩ := hx.exists_cons (by decide)
  exact ⟨body', u, rfl, hbody, hu⟩

private theorem Cleaned.exists_last {body g' : Text} (h : Cleaned ('-' :: '-' :: body) g') :
    ∃ body', g' = '-' :: '-' :: body' ∧ Cleaned body body' := by
  obtain ⟨v, rfl, hv⟩ := h.exists_cons (by decide)
  obtain ⟨body', rfl, hbody⟩ := hv.exists_cons (by decide)
  exact ⟨body', rfl, hbody⟩

private theorem Cleaned.exists_block {body g g' : Text} (hbody : Lexeme.Calm body)
    (h : Cleaned ('/' :: '*' :: (body ++ '*' :: '/' :: g)) g') :
    ∃ u, g' = '/' :: '*' :: (body ++ '*' :: '/' :: u) ∧ Cleaned g u := by
  rcases h with rfl | rfl
  · exact ⟨g, rfl, .inl rfl⟩
  · exact ⟨unticked g, hbody.unticked_block g, .inr rfl⟩

end Script

namespace Lexeme

open Script (Cleaned unticked)
open Statement (resume semicolon ofLines linesOf firstLine afterLine extended Passes)

theorem blank_of_separators {k : Text} (h : ∀ c ∈ k, isSeparator c = true) :
    Text.blank k = true :=
  List.all_eq_true.2 fun c hc => Statement.isBlank_of_isSeparator (h c hc)

/-- Separators and block comments. -/
inductive Residue : Text → Prop
  | nil : Residue []
  | separator {c : Char} (hc : isSeparator c = true) {k : Text} (h : Residue k) : Residue (c :: k)
  | block {body k : Text} (hbody : ¬['*', '/'] <:+: body) (h : Residue k) :
      Residue ('/' :: '*' :: (body ++ '*' :: '/' :: k))

section
variable {k m t : Text}

private theorem residue_of_separators (h : ∀ c ∈ k, isSeparator c = true) : Residue k := by
  induction k with
  | nil => exact .nil
  | cons c k ih =>
    obtain ⟨hc, hk⟩ := List.forall_mem_cons.1 h
    exact .separator hc (ih hk)

private theorem Residue.append (hk : Residue k) (hm : Residue m) : Residue (k ++ m) := by
  induction hk with
  | nil => exact hm
  | separator hc _ ih => exact .separator hc ih
  | block hbody _ ih =>
    rw [List.cons_append, List.cons_append, List.append_assoc]
    exact .block hbody ih

private theorem Residue.gapLength_append (h : Residue k) (t : Text) :
    gapLength (k ++ t) = k.length + gapLength t := by
  induction h with
  | nil => exact (Nat.zero_add _).symm
  | separator hc _ ih =>
    rw [List.cons_append, gapLength_cons hc, ih, List.length_cons]
    omega
  | @block body k hbody _ ih =>
    have hsource : '/' :: '*' :: (body ++ '*' :: '/' :: k) ++ t =
        '/' :: '*' :: (body ++ '*' :: '/' :: (k ++ t)) := by
      simp
    rw [hsource, gapLength_comment hbody, ih]
    simp only [List.length_cons, List.length_append]
    omega

theorem Residue.breaks (h : Residue k) (hne : k ≠ []) (t : Text) :
    Token.breaks (k ++ t) = true := by
  cases h with
  | nil => exact absurd rfl hne
  | separator hc _ => simp [Token.breaks, Token.isBreak, hc]
  | block _ _ => rfl

theorem Residue.trimStart (h : Residue k) : Residue (Text.trimStart k) := by
  induction h with
  | nil => exact .nil
  | @separator c hc k _ ih =>
    have hblank : Text.blank [c] = true := blank_of_separators (by simpa using hc)
    rwa [← List.singleton_append, Text.trimStart_blank_append hblank]
  | block hbody h =>
    rw [Text.trimStart_cons (by decide)]
    exact .block hbody h

theorem Residue.trimEnd (h : Residue k) : Residue (Text.trimEnd k) := by
  induction h with
  | nil => exact .nil
  | @separator c hc k _ ih =>
    have hblank : Text.blank [c] = true := blank_of_separators (by simpa using hc)
    cases hk : Text.blank k with
    | true =>
      have hall : Text.blank ([c] ++ k) = true := by rw [Text.blank_append, hblank, hk]; rfl
      have hnil : Text.trimEnd ([c] ++ k) = [] := Text.trimEnd_append_blank hall []
      rw [← List.singleton_append, hnil]
      exact .nil
    | false =>
      rw [← List.singleton_append, Text.trimEnd_append hk]
      exact .separator hc ih
  | @block body k hbody _ ih =>
    have htrim := Text.trimEnd_append_cons (c := '/') (by decide) ('/' :: '*' :: (body ++ ['*'])) k
    have hsource : ∀ k : Text, '/' :: '*' :: (body ++ ['*']) ++ '/' :: k =
        '/' :: '*' :: (body ++ '*' :: '/' :: k) := by
      simp
    rw [hsource, hsource] at htrim
    rw [htrim]
    exact .block hbody ih

/-- The lexer takes a residue into the gap behind it. -/
theorem Residue.lex_append (h : Residue k) {l : Lexeme} {ls : List Lexeme} {g : Text}
    (ht : lex t = (l :: ls, g)) : lex (k ++ t) = ({ l with gap := k ++ l.gap } :: ls, g) := by
  have hdrop : (k ++ t).drop (gapLength (k ++ t)) = t.drop (gapLength t) := by
    rw [h.gapLength_append, ← List.drop_drop, List.drop_left]
  have htake : (k ++ t).take (gapLength (k ++ t)) = k ++ t.take (gapLength t) := by
    rw [h.gapLength_append, List.take_length_add_append]
  cases hd : t.drop (gapLength t) with
  | nil =>
    rw [lex_of_drop_nil hd] at ht
    cases ht
  | cons c cs =>
    rw [lex_of_drop_cons hd, Prod.mk.injEq, List.cons.injEq] at ht
    obtain ⟨⟨rfl, rfl⟩, rfl⟩ := ht
    rw [lex_of_drop_cons (hdrop.trans hd), htake]

theorem Residue.lex (h : Residue k) : Lexeme.lex k = ([], k) := by
  refine lex_of_drop_nil ?_
  have hlen := h.gapLength_append []
  rw [List.append_nil] at hlen
  rw [hlen, show gapLength [] = 0 by simp [gapLength], Nat.add_zero, List.drop_length]

end

section
variable {body u v x : Text}

private theorem prefix_of_not_mem {p y : Text} {c : Char} (h : p ++ y = u ++ c :: x)
    (hc : c ∉ p) : p <+: u := by
  rcases List.append_eq_append_iff.1 h with ⟨a, rfl, -⟩ | ⟨a, rfl, ha⟩
  · exact List.prefix_append p a
  · cases a with
    | nil => simp
    | cons d a =>
      obtain ⟨rfl, -⟩ := List.cons.inj ha
      simp at hc

private theorem not_mem_of_blank {b : Text} (hb : Text.blank b = true) : '*' ∉ b := fun hm =>
  absurd (List.all_eq_true.1 hb _ hm) (by decide)

private theorem exists_behind_line (t : Text) :
    ∃ z, firstLine t ++ z = t ∧ z.head?.all Text.isBlank = true := by
  rcases Statement.eq_firstLine t with he | he
  · exact ⟨[], by rw [List.append_nil]; exact he.symm, rfl⟩
  · exact ⟨_, he.symm, rfl⟩

/-- A word at the start of a line that begins in a comment is a word of the comment. -/
private theorem mem_words_of_line {b w r : Text} (hv : ['\n'] ++ v <:+ body)
    (hb : Text.blank b = true) (hw : ∀ c ∈ w, Token.isWordStart c = true) (hne : w ≠ [])
    (hr : r.head?.all Text.isBlank = true) (hline : b ++ w ++ r = v ++ '*' :: x) :
    w ∈ Text.words body := by
  have hstar : '*' ∉ b ++ w := by
    rw [List.mem_append, not_or]
    exact ⟨not_mem_of_blank hb, fun hm => absurd (hw _ hm) (by decide)⟩
  obtain ⟨y, rfl⟩ := prefix_of_not_mem hline hstar
  rw [List.append_assoc _ y, List.append_cancel_left_eq] at hline
  subst hline
  cases y with
  | nil => exact absurd (show Text.isBlank '*' = true from hr) (by decide)
  | cons d y =>
    have hword : Text.words (w ++ d :: y) = w :: Text.words (d :: y) :=
      Text.words_append hne
        (fun c hc => Token.isBlank_of_continuesWord (Token.continuesWord_of_isWordStart (hw c hc)))
        (by simpa using hr)
    obtain ⟨a, rfl⟩ := hv
    rw [List.singleton_append, Text.words_append_cons (by decide), List.append_assoc,
      Text.words_blank_append hb, hword]
    exact List.mem_append_right _ List.mem_cons_self

/-- A line that begins in a calm comment, up to the end of the comment, is an ordinary one unless
it is blank. -/
private theorem Calm.ordinary (h : Calm body) (hv : ['\n'] ++ v <:+ body)
    (hblank : Text.blank (firstLine (v ++ '*' :: x)) = false) :
    Statement.Ordinary (firstLine (v ++ '*' :: x)) := by
  obtain ⟨b, c, s, hline, hb, hc⟩ := Text.exists_of_not_blank hblank
  obtain ⟨z, hz, hbreak⟩ := exists_behind_line (v ++ '*' :: x)
  rw [hline] at hz ⊢
  refine Statement.ordinary hb hc (fun ⟨hdash, hs⟩ => ?_) ?_
  · -- two dashes at the start of the line are two dashes in the comment
    obtain ⟨s', rfl⟩ := List.head?_eq_some_iff.1 hs
    subst hdash
    have hp : b ++ ['-', '-'] <+: v :=
      prefix_of_not_mem (y := s' ++ z) (by simpa using hz) (by simp [not_mem_of_blank hb])
    have hin : ['-', '-'] <:+: v := (List.suffix_append b _).isInfix.trans hp.isInfix
    exact h.dashes (hin.trans ((List.suffix_append ['\n'] v).trans hv).isInfix)
  · -- the first word of the line is a word of the comment
    obtain ⟨w, r, rfl, hr, hwords⟩ := Text.exists_words_cons hb hc s
    refine Statement.directive?_of_words hwords ?_
    by_contra hsame
    rw [Bool.not_eq_false] at hsame
    have hletters := Text.isWordStart_of_same hsame (List.all_eq_true.1 (by decide))
    have hend : (r ++ z).head?.all Text.isBlank = true := by
      cases r with
      | nil => exact hbreak
      | cons d r => exact hr
    have hmem := mem_words_of_line (r := r ++ z) hv hb hletters (List.cons_ne_nil c w) hend
      (by simpa using hz)
    rw [h.delimiter _ hmem] at hsame
    cases hsame

private theorem passes_of_dashes (hu : ∀ c ∈ u, Statement.passes c = true)
    (hd : ¬['-', '-'] <:+: u) (hx : x.head? ≠ some '-') : Passes u x := by
  induction u with
  | nil => exact Statement.passes_nil
  | cons c u ih =>
    obtain ⟨hc, hrest⟩ := List.forall_mem_cons.1 hu
    rw [Text.pair_infix_cons, not_or, not_and] at hd
    have hfirst : Passes [c] (u ++ x) := fun P => Statement.resume_char hc fun he => by
      cases u with
      | nil => exact hx
      | cons d u => exact hd.1 he
    exact hfirst.append (ih hrest hd.2)

private theorem passes_end : Passes ['*', '/'] x := Statement.passes_of_all (by decide) (by decide)

/-- What the scanner makes of the rest of a calm comment from inside a line. -/
private def Resumes (v b : Text) : Prop :=
  ¬['*', '/'] <:+: b ∧ ∀ P t, Text.blank P = false →
    resume semicolon P none (v ++ '*' :: '/' :: t) =
      resume semicolon (P ++ (b ++ ['*', '/'])) none t

/-- What it makes of the rest from the start of a line. -/
private def Begins (v b : Text) : Prop :=
  ¬['*', '/'] <:+: b ∧ ∀ P t, Text.blank P = false →
    ofLines semicolon P none (linesOf (v ++ '*' :: '/' :: t)) =
      resume semicolon (P ++ (b ++ ['*', '/'])) none t

private theorem Calm.resumes_line (h : Calm body) (hv : v <:+ body) (hn : '\n' ∉ v) :
    Resumes v v := by
  refine ⟨fun hi => h.ends (hi.trans hv.isInfix), fun P t _ => ?_⟩
  have hpasses : ∀ c ∈ v, Statement.passes c = true := fun c hc =>
    (h.passes c (hv.subset hc)).resolve_left fun he => hn (he ▸ hc)
  have hdashes : ¬['-', '-'] <:+: v := fun hi => h.dashes (hi.trans hv.isInfix)
  have hline : Passes (v ++ ['*', '/']) t :=
    (passes_of_dashes hpasses hdashes (by simp)).append passes_end
  have hstep := hline P
  rwa [List.append_assoc] at hstep

private theorem Calm.resumes_break (h : Calm body) {w : Text} (hv : w ++ '\n' :: v <:+ body)
    (hn : '\n' ∉ w) {b : Text} (hb : Begins v b) : Resumes (w ++ '\n' :: v) (w ++ '\n' :: b) := by
  have hw : w <:+: body := (List.prefix_append w ('\n' :: v)).isInfix.trans hv.isInfix
  refine ⟨Statement.not_pair_infix_line (fun hi => h.ends (hi.trans hw)) hb.1, fun P t hP => ?_⟩
  have hpasses : Passes w ('\n' :: (v ++ '*' :: '/' :: t)) :=
    passes_of_dashes (fun c hc =>
      (h.passes c (hw.subset hc)).resolve_left fun he => hn (he ▸ hc))
      (fun hi => h.dashes (hi.trans hw)) (by simp)
  have hextended : extended (P ++ w) [] none = P ++ w ++ ['\n'] := by
    simp [extended, Text.blank_append, hP]
  have hfirst : Text.blank (P ++ w ++ ['\n']) = false := by simp [Text.blank_append, hP]
  rw [List.append_assoc, List.cons_append, hpasses P, Statement.resume_newline, hextended,
    hb.2 _ t hfirst]
  simp

private theorem begins_blank {w b : Text} (hw : Text.blank w = true) (hn : '\n' ∉ w)
    (hb : Begins v b) : Begins (w ++ '\n' :: v) ('\n' :: b) := by
  refine ⟨?_, fun P t hP => ?_⟩
  · rw [Text.pair_infix_cons, not_or]
    exact ⟨fun he => absurd he.1 (by decide), hb.1⟩
  · have hfirst : Text.blank (P ++ ['\n']) = false := by rw [Text.blank_append, hP]; rfl
    rw [List.append_assoc, List.cons_append, Statement.ofLines_blank_line hn hw, hP,
      if_neg Bool.false_ne_true, hb.2 _ t hfirst]
    simp

private theorem Calm.begins_ordinary (h : Calm body) (hv : ['\n'] ++ v <:+ body) {b : Text}
    (hblank : ∀ x, Text.blank (firstLine (v ++ '*' :: x)) = false) (hb : Resumes v b) :
    Begins v b := by
  refine ⟨hb.1, fun P t hP => ?_⟩
  rw [Statement.ofLines_ordinary (by simp) (h.ordinary hv (hblank _)), hb.2 P t hP]

private theorem firstLine_star (hn : '\n' ∉ v) (x : Text) :
    Text.blank (firstLine (v ++ '*' :: x)) = false := by
  rw [Statement.firstLine_append hn, Statement.firstLine_cons_of_ne (by decide)]
  simp [Text.blank, Text.isBlank]

private theorem Calm.exists_inside (h : Calm body) (hv : v <:+ body) :
    (∃ b, Resumes v b) ∧ (['\n'] ++ v <:+ body → ∃ b, Begins v b) := by
  induction hn : v.length using Nat.strongRecOn generalizing v with
  | ind n ih =>
    by_cases hline : '\n' ∈ v
    · obtain ⟨w, u, rfl, hw⟩ : ∃ w u, v = w ++ '\n' :: u ∧ '\n' ∉ w := by
        rcases Statement.eq_firstLine v with he | he
        · exact absurd (he ▸ hline) (Statement.not_mem_firstLine v)
        · exact ⟨_, _, he, Statement.not_mem_firstLine v⟩
      have hu : ['\n'] ++ u <:+ body := (List.suffix_append w ('\n' :: u)).trans hv
      obtain ⟨b, hb⟩ := (ih u.length (by simp at hn; omega)
        ((List.suffix_append ['\n'] u).trans hu) rfl).2 hu
      have hresumes := h.resumes_break hv hw hb
      refine ⟨⟨_, hresumes⟩, fun hstart => ?_⟩
      cases hblank : Text.blank w with
      | true => exact ⟨_, begins_blank hblank hw hb⟩
      | false =>
        refine ⟨_, h.begins_ordinary hstart (fun x => ?_) hresumes⟩
        rw [List.append_assoc, Statement.firstLine_append hw, List.cons_append,
          Statement.firstLine_newline, List.append_nil, hblank]
    · have hresumes := h.resumes_line hv hline
      exact ⟨⟨v, hresumes⟩, fun hstart =>
        ⟨v, h.begins_ordinary hstart (firstLine_star hline) hresumes⟩⟩

/-- The scanner takes a calm comment into the open statement. It only empties its blank lines. -/
theorem Calm.exists_resume (h : Calm body) : ∃ b, ¬['*', '/'] <:+: b ∧ ∀ P t,
    resume semicolon P none ('/' :: '*' :: (body ++ '*' :: '/' :: t)) =
      resume semicolon (P ++ '/' :: '*' :: (b ++ ['*', '/'])) none t := by
  obtain ⟨b, hends, hb⟩ := (h.exists_inside (List.suffix_refl body)).1
  refine ⟨b, hends, fun P t => ?_⟩
  have hopen : Passes ['/', '*'] (body ++ '*' :: '/' :: t) :=
    Statement.passes_of_all (by decide) (by decide)
  have hblank : Text.blank (P ++ ['/', '*']) = false := by
    rw [Text.blank_append]
    exact Bool.and_false _
  have hstep := hopen P
  rw [hb _ t hblank] at hstep
  simpa using hstep

end

/-- The text is empty, or a line that begins with it after blanks is an ordinary one. -/
def Opens (t : Text) : Prop :=
  t = [] ∨ ∀ w, Text.blank w = true → '\n' ∉ w → Statement.Ordinary (firstLine (w ++ t))

/-- Of the gap the scanner keeps `k`, in the text of a statement that is blank if `fresh` holds, and
`k` still ends the token in front of it. -/
structure Leaves (atEnd fresh : Bool) (g k : Text) : Prop where
  residue : Residue k
  ends : g = [] ∧ k = [] ∨ k ≠ [] ∨ fresh = true ∨ atEnd = true
  resume : ∀ g', Cleaned g g' → ∀ P t, Text.blank P = fresh → (atEnd = true → t = []) → Opens t →
    Statement.resume semicolon P none (g' ++ t) = Statement.resume semicolon (P ++ k) none t

/-- Of the gap behind the blanks `w` at the start of a line the scanner keeps `k`. -/
private structure LineLeaves (atEnd fresh : Bool) (w g k : Text) : Prop where
  residue : Residue k
  lines : ∀ g', Cleaned g g' → ∀ P t, Text.blank P = fresh → (atEnd = true → t = []) → Opens t →
    ofLines semicolon P none (linesOf (w ++ (g' ++ t))) = resume semicolon (P ++ k) none t

section
variable {atEnd fresh : Bool} {g k w body : Text}

private theorem leaves_nil : Leaves atEnd fresh [] [] := by
  refine ⟨.nil, .inl ⟨rfl, rfl⟩, fun g' hg P t _ _ _ => ?_⟩
  obtain rfl : g' = [] := by rcases hg with rfl | rfl <;> rfl
  rw [List.append_nil, List.nil_append]

private theorem lineLeaves_nil (hw : ∀ c ∈ w, isSeparator c = true) (hn : '\n' ∉ w) :
    LineLeaves atEnd fresh w [] w := by
  refine ⟨residue_of_separators hw, fun g' hg P t _ _ ht => ?_⟩
  obtain rfl : g' = [] := by rcases hg with rfl | rfl <;> rfl
  rw [List.nil_append]
  rcases ht with rfl | ht
  · rw [List.append_nil, Statement.ofLines_last_blank hn (blank_of_separators hw),
      Statement.resume_nil, Statement.closed_append_blank _ _ (blank_of_separators hw)]
  · have hordinary := ht w (blank_of_separators hw) hn
    have hne : w ++ t ≠ [] := by
      intro hnil
      rw [hnil] at hordinary
      exact absurd hordinary.not_blank (by decide)
    rw [Statement.ofLines_ordinary hne hordinary, Statement.passes_separators hw hn]

private theorem Leaves.separator {c : Char} (h : Leaves atEnd fresh g k)
    (hc : isSeparator c = true) (hn : c ≠ '\n') : Leaves atEnd fresh (c :: g) (c :: k) := by
  refine ⟨.separator hc h.residue, .inr (.inl (by simp)), fun g' hg P t hP hend ht => ?_⟩
  obtain ⟨u, rfl, hu⟩ := hg.exists_cons (isSeparator_ne_tick hc)
  have hpass : Passes [c] (u ++ t) :=
    Statement.passes_separators (by simpa using hc) (by simpa using Ne.symm hn)
  have hblank : Text.blank (P ++ [c]) = fresh := by
    rw [Text.blank_append, hP, blank_of_separators (k := [c]) (by simpa using hc), Bool.and_true]
  have hstep := h.resume u hu (P ++ [c]) t hblank hend ht
  rw [List.append_assoc] at hstep
  exact (hpass P).trans hstep

private theorem LineLeaves.separator {c : Char} (h : LineLeaves atEnd fresh (w ++ [c]) g k)
    (hc : isSeparator c = true) : LineLeaves atEnd fresh w (c :: g) k := by
  refine ⟨h.residue, fun g' hg P t hP hend ht => ?_⟩
  obtain ⟨u, rfl, hu⟩ := hg.exists_cons (isSeparator_ne_tick hc)
  have hstep := h.lines u hu P t hP hend ht
  rwa [List.append_assoc] at hstep

/-- What the scanner keeps of a line break and what follows it. -/
private def broken (fresh : Bool) (k : Text) : Text := if fresh then k else '\n' :: k

private theorem residue_broken (h : Residue k) : Residue (broken fresh k) := by
  cases fresh with
  | true => exact h
  | false => exact .separator (by decide) h

private theorem broken_append {P : Text} (hP : Text.blank P = fresh) :
    Text.blank (if fresh then P else P ++ ['\n']) = fresh ∧
      (if fresh then P else P ++ ['\n']) ++ k = P ++ broken fresh k := by
  cases fresh with
  | true => exact ⟨hP, rfl⟩
  | false => exact ⟨by rw [if_neg Bool.false_ne_true, Text.blank_append, hP]; rfl, by simp [broken]⟩

private theorem LineLeaves.newline (h : LineLeaves atEnd fresh [] g k)
    (hw : ∀ c ∈ w, isSeparator c = true) (hn : '\n' ∉ w) :
    LineLeaves atEnd fresh w ('\n' :: g) (broken fresh k) := by
  refine ⟨residue_broken h.residue, fun g' hg P t hP hend ht => ?_⟩
  obtain ⟨u, rfl, hu⟩ := hg.exists_cons (by decide)
  obtain ⟨hblank, happend⟩ := broken_append (k := k) hP
  have hstep := h.lines u hu _ t hblank hend ht
  rw [List.nil_append, happend] at hstep
  rw [← hstep, List.cons_append, Statement.ofLines_blank_line hn (blank_of_separators hw), hP]

private theorem LineLeaves.leaves (h : LineLeaves atEnd fresh [] g k) :
    Leaves atEnd fresh ('\n' :: g) (broken fresh k) := by
  refine ⟨residue_broken h.residue, ?_, fun g' hg P t hP hend ht => ?_⟩
  · cases fresh <;> simp [broken]
  · obtain ⟨u, rfl, hu⟩ := hg.exists_cons (by decide)
    obtain ⟨hblank, happend⟩ := broken_append (k := k) hP
    have hextended : extended P [] none = if fresh then P else P ++ ['\n'] := by
      rw [extended, hP]
      cases fresh <;> simp [Text.blank]
    have hstep := h.lines u hu _ t hblank hend ht
    rw [List.nil_append, happend] at hstep
    rw [List.cons_append, Statement.resume_newline, hextended, hstep]

private theorem LineLeaves.line (h : LineLeaves atEnd fresh [] g k) (hbody : '\n' ∉ body)
    (hw : ∀ c ∈ w, isSeparator c = true) (hn : '\n' ∉ w) :
    LineLeaves atEnd fresh w ('-' :: '-' :: (body ++ '\n' :: g)) k := by
  refine ⟨h.residue, fun g' hg P t hP hend ht => ?_⟩
  obtain ⟨body', u, rfl, hbody', hu⟩ := hg.exists_line
  have hstep := h.lines u hu P t hP hend ht
  rw [List.cons_append, List.cons_append,
    Statement.ofLines_comment_line hn (blank_of_separators hw), List.append_assoc,
    Statement.afterLine_append (hbody'.not_mem hbody), List.cons_append,
    Statement.afterLine_newline]
  exact hstep

private theorem Leaves.line (h : Leaves atEnd fresh ('\n' :: g) k) (hbody : '\n' ∉ body) :
    Leaves atEnd fresh ('-' :: '-' :: (body ++ '\n' :: g)) k := by
  refine ⟨h.residue, h.ends.imp (fun he => absurd he.1 (by simp)) id,
    fun g' hg P t hP hend ht => ?_⟩
  obtain ⟨body', u, rfl, hbody', hu⟩ := hg.exists_line
  have hstep := h.resume ('\n' :: u) (hu.imp (congrArg _) fun he => by
    rw [he, unticked_cons_of_ne (by decide)]) P t hP hend ht
  rw [List.cons_append, List.cons_append, Statement.resume_comment, List.append_assoc,
    Statement.firstLine_append (hbody'.not_mem hbody), List.cons_append,
    Statement.firstLine_newline, List.append_nil, List.drop_left]
  exact hstep

private theorem lineLeaves_last (hbody : '\n' ∉ body) (hend : atEnd = true)
    (hw : ∀ c ∈ w, isSeparator c = true) (hn : '\n' ∉ w) :
    LineLeaves atEnd fresh w ('-' :: '-' :: body) [] := by
  refine ⟨.nil, fun g' hg P t _ ht _ => ?_⟩
  obtain ⟨body', rfl, hbody'⟩ := hg.exists_last
  rw [ht hend, List.cons_append, List.cons_append, List.append_nil,
    Statement.ofLines_comment_line hn (blank_of_separators hw),
    Statement.afterLine_of_not_mem (hbody'.not_mem hbody), Statement.linesOf_nil, ofLines,
    List.append_nil, Statement.resume_nil]

private theorem leaves_last (hbody : '\n' ∉ body) (hend : atEnd = true) :
    Leaves atEnd fresh ('-' :: '-' :: body) [] := by
  refine ⟨.nil, .inr (.inr (.inr hend)), fun g' hg P t _ ht _ => ?_⟩
  obtain ⟨body', rfl, hbody'⟩ := hg.exists_last
  rw [ht hend, List.cons_append, List.cons_append, List.append_nil, Statement.resume_comment,
    Statement.firstLine_of_not_mem (hbody'.not_mem hbody), List.drop_length, List.append_nil]

private theorem Leaves.block (h : Leaves atEnd false g k) (hbody : Calm body) :
    ∃ b, Leaves atEnd fresh ('/' :: '*' :: (body ++ '*' :: '/' :: g)) b := by
  obtain ⟨b, hends, hb⟩ := hbody.exists_resume
  have hresidue : Residue ('/' :: '*' :: (b ++ '*' :: '/' :: k)) := .block hends h.residue
  refine ⟨_, hresidue, .inr (.inl (by simp)), fun g' hg P t _ hend ht => ?_⟩
  obtain ⟨u, rfl, hu⟩ := hg.exists_block hbody
  have hblank : Text.blank (P ++ '/' :: '*' :: (b ++ ['*', '/'])) = false := by
    rw [Text.blank_append]
    exact Bool.and_false _
  have hstep := h.resume u hu _ t hblank hend ht
  rw [List.cons_append, List.cons_append, List.append_assoc, List.cons_append, List.cons_append,
    hb P (u ++ t), hstep]
  simp

private theorem Leaves.lineLeaves_block {body : Text}
    (h : Leaves atEnd fresh ('/' :: '*' :: (body ++ '*' :: '/' :: g)) k)
    (hw : ∀ c ∈ w, isSeparator c = true) (hn : '\n' ∉ w) (hbody : Calm body) :
    LineLeaves atEnd fresh w ('/' :: '*' :: (body ++ '*' :: '/' :: g)) (w ++ k) := by
  refine ⟨(residue_of_separators hw).append h.residue, fun g' hg P t hP hend ht => ?_⟩
  obtain ⟨u, rfl, hu⟩ := hg.exists_block hbody
  have hordinary : Statement.Ordinary
      (firstLine (w ++ ('/' :: '*' :: (body ++ '*' :: '/' :: u) ++ t))) := by
    rw [Statement.firstLine_append hn, List.cons_append, List.cons_append,
      Statement.firstLine_cons_of_ne (by decide), Statement.firstLine_cons_of_ne (by decide)]
    refine Statement.ordinary (blank_of_separators hw) (by decide) (by simp) ?_
    exact Statement.directive?_of_head (c := '/') (blank_of_separators hw) (by decide) (by decide)
  have hblank : Text.blank (P ++ w) = fresh := by
    rw [Text.blank_append, hP, blank_of_separators hw, Bool.and_true]
  have hstep := h.resume _ hg (P ++ w) t hblank hend ht
  rw [Statement.ofLines_ordinary (by simp) hordinary, Statement.passes_separators hw hn, hstep,
    List.append_assoc]

/-- The scanner goes over a gap and keeps a residue of it, whether the gap begins inside a line or
at the start of one. -/
private theorem Gap.exists_leaves_lines (h : Gap atEnd g) (fresh : Bool) :
    (∃ k, Leaves atEnd fresh g k) ∧ ∀ w, (∀ c ∈ w, isSeparator c = true) → '\n' ∉ w →
      ∃ k, LineLeaves atEnd fresh w g k := by
  induction h generalizing fresh with
  | nil => exact ⟨⟨[], leaves_nil⟩, fun w hw hn => ⟨w, lineLeaves_nil hw hn⟩⟩
  | @separator c hc g _ ih =>
    obtain ⟨⟨k, hk⟩, hlines⟩ := ih fresh
    by_cases hline : c = '\n'
    · subst hline
      obtain ⟨k, hk⟩ := hlines [] (by simp) (by simp)
      exact ⟨⟨_, hk.leaves⟩, fun w hw hn => ⟨_, hk.newline hw hn⟩⟩
    · refine ⟨⟨_, hk.separator hc hline⟩, fun w hw hn => ?_⟩
      obtain ⟨k, hk⟩ := hlines (w ++ [c]) (by simpa [or_imp, forall_and] using ⟨hw, hc⟩)
        (by simpa [Ne.symm hline] using hn)
      exact ⟨k, hk.separator hc⟩
  | line hbody _ ih =>
    obtain ⟨k, hk⟩ := (ih fresh).2 [] (by simp) (by simp)
    exact ⟨⟨_, hk.leaves.line hbody⟩, fun w hw hn => ⟨k, hk.line hbody hw hn⟩⟩
  | block hbody _ ih =>
    obtain ⟨k, hk⟩ := (ih false).1
    obtain ⟨b, hb⟩ : ∃ b, Leaves _ fresh _ b := hk.block hbody
    exact ⟨⟨b, hb⟩, fun w hw hn => ⟨w ++ b, hb.lineLeaves_block hw hn hbody⟩⟩
  | last hbody hend =>
    exact ⟨⟨[], leaves_last hbody hend⟩, fun w hw hn => ⟨[], lineLeaves_last hbody hend hw hn⟩⟩

theorem Gap.exists_leaves (h : Gap atEnd g) (fresh : Bool) : ∃ k, Leaves atEnd fresh g k :=
  (h.exists_leaves_lines fresh).1

end

end Lexeme

end TableDialects
