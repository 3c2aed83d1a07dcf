import TableDialects.Proofs.Statement.Whole
import Mathlib.Data.List.Induction

/-!
# Statements joined again

The text of a statement consists of whole lines, its blank lines being empty. So the splitter takes
it as it is, and splitting is undone by joining the statements.
-/
namespace TableDialects.Statement

/-- Lines with the line feed that ends each of them. -/
def ended (ls : List Text) : Text := ls.flatMap (· ++ ['\n'])

/-- Lines that the splitter adds to the open statement as they are. -/
inductive Kept : Option Char → List Text → Option Char → Prop
  | nil (quote : Option Char) : Kept quote [] quote
  | cons {quote quote₁ quote' : Option Char} {l : Text} {ls : List Text} (hcalm : Calm l)
      (hblank : quote = none → l = [] ∨ Text.blank l = false) (hl : Whole quote l quote₁)
      (h : Kept quote₁ ls quote') : Kept quote (l :: ls) quote'

/-- Kept lines of which the first is not blank. -/
structure Begun (ls : List Text) (quote : Option Char) : Prop where
  kept : Kept none ls quote
  first : ∀ l ∈ ls.head?, Text.blank l = false

section
variable {quote quote₁ quote' : Option Char} {l m P : Text} {ls ls' : List Text}

theorem ended_cons (l : Text) (ls : List Text) : ended (l :: ls) = l ++ ['\n'] ++ ended ls := rfl

private theorem ended_append (ls ls' : List Text) : ended (ls ++ ls') = ended ls ++ ended ls' :=
  List.flatMap_append

private theorem Kept.concat (h : Kept quote ls quote₁) (hcalm : Calm l)
    (hblank : quote₁ = none → l = [] ∨ Text.blank l = false) (hl : Whole quote₁ l quote') :
    Kept quote (ls ++ [l]) quote' := by
  induction h with
  | nil => exact .cons hcalm hblank hl (.nil _)
  | cons hc hb hw _ ih => exact .cons hc hb hw (ih hblank hl)

private theorem Kept.of_concat (h : Kept quote (ls ++ [l]) quote') :
    ∃ quote₁, Kept quote ls quote₁ ∧ Calm l ∧ Whole quote₁ l quote' := by
  induction ls generalizing quote with
  | nil =>
    cases h with
    | cons hcalm _ hl h =>
      cases h
      exact ⟨_, .nil _, hcalm, hl⟩
  | cons k ls ih =>
    cases h with
    | cons hcalm hblank hl h =>
      obtain ⟨quote₁, hls, hcalm', hl'⟩ := ih h
      exact ⟨quote₁, .cons hcalm hblank hl hls, hcalm', hl'⟩

private theorem Kept.proper (h : Kept quote ls quote') (hp : Proper quote) : Proper quote' := by
  induction h with
  | nil => exact hp
  | cons _ _ hl _ ih => exact ih (hl.proper hp)

private theorem Begun.proper (h : Begun ls quote) : Proper quote := h.kept.proper (by simp [Proper])

private theorem Kept.calm (h : Kept quote ls quote') : ∀ l ∈ ls, Calm l := by
  induction h with
  | nil => simp
  | cons hcalm _ _ _ ih => exact List.forall_mem_cons.2 ⟨hcalm, ih⟩

theorem begun_nil : Begun [] none := ⟨.nil _, by simp⟩

private theorem Begun.blank_ended (h : Begun ls quote) : Text.blank (ended ls) = ls.isEmpty := by
  cases ls with
  | nil => rfl
  | cons l ls => simp [ended, Text.blank_append, h.first l rfl]

theorem Begun.concat (h : Begun ls quote) (hcalm : Calm l)
    (hblank : quote = none → l = [] ∧ ls ≠ [] ∨ Text.blank l = false) (hl : Whole quote l quote') :
    Begun (ls ++ [l]) quote' := by
  refine ⟨h.kept.concat hcalm (fun hq => (hblank hq).imp And.left id) hl, ?_⟩
  cases ls with
  | nil =>
    cases h.kept
    simpa using hblank rfl
  | cons k ls => simpa using h.first

/-- A line is ordinary when the splitter takes it whole. -/
theorem Whole.ordinary (h : Whole none l quote) (hb : Text.blank l = false) (hcalm : Calm l) :
    Ordinary l := by
  obtain ⟨b, c, u, rfl, hblank, hc⟩ := Text.exists_of_not_blank hb
  exact Statement.ordinary hblank hc (h.not_comment hblank) hcalm.undirected.directive?

/-- So it is with a terminator behind it. -/
theorem Whole.ordinary_semicolon (h : Whole none l quote) (hb : Text.blank l = false)
    (hcalm : Calm l) : Ordinary (l ++ [';']) := by
  have hdirective : directive? (l ++ [';']) = none :=
    Undirected.directive? ((undirected_append_cons (by decide)).2 ⟨hcalm.undirected, by decide⟩)
  obtain ⟨b, c, u, rfl, hblank, hc⟩ := Text.exists_of_not_blank hb
  rw [List.append_assoc, List.cons_append] at hdirective ⊢
  refine Statement.ordinary hblank hc (fun hd => h.not_comment hblank ⟨hd.1, ?_⟩) hdirective
  cases u with
  | nil => simp at hd
  | cons d u => exact hd.2

/-- An ordinary line, or any line inside a literal, goes where the scanner puts it. -/
theorem ofLines_scan (h : quote = none → Ordinary l) :
    ofLines semicolon P quote (l :: ls) =
      match (cut semicolon quote l).closed with
      | [] =>
        ofLines semicolon (extended P (cut semicolon quote l).rest (cut semicolon quote l).quote)
          (cut semicolon quote l).quote ls
      | p :: ps =>
        closed semicolon (P ++ p) ++ ps.flatMap (closed semicolon) ++
          ofLines semicolon (extended [] (cut semicolon quote l).rest (cut semicolon quote l).quote)
            (cut semicolon quote l).quote ls := by
  cases quote with
  | none =>
    have hl := h rfl
    rw [ofLines, hl.not_comment, hl.not_blank, hl.not_directive]
    rfl
  | some q =>
    rw [ofLines]
    rfl

theorem ofLines_whole (hl : Whole quote l quote') (h : quote = none → Ordinary l)
    (hP : Text.blank l = true → Text.blank P = false) :
    ofLines semicolon P quote (l :: ls) = ofLines semicolon (P ++ l ++ ['\n']) quote' ls := by
  have hextended : extended P l quote' = P ++ l ++ ['\n'] := by
    rw [extended, if_neg]
    cases hb : Text.blank l with
    | true => simp [hP hb]
    | false => simp
  simp only [ofLines_scan h, hl.cut, hextended]

private theorem Kept.ofLines (h : Kept quote ls quote') (hP : Text.blank P = false) :
    ofLines semicolon P quote (ls ++ ls') = ofLines semicolon (P ++ ended ls) quote' ls' := by
  induction h generalizing P with
  | nil => rw [ended, List.flatMap_nil, List.append_nil, List.nil_append]
  | @cons quote quote₁ quote' l ls hcalm hblank hl _ ih =>
    have hnext : Text.blank (P ++ l ++ ['\n']) = false := by
      rw [Text.blank_append, Text.blank_append, hP, Bool.false_and, Bool.false_and]
    have hline : Statement.ofLines semicolon P quote (l :: (ls ++ ls')) =
        Statement.ofLines semicolon (P ++ l ++ ['\n']) quote₁ (ls ++ ls') := by
      by_cases hempty : quote = none ∧ l = []
      · obtain ⟨rfl, rfl⟩ := hempty
        cases hl
        rw [ofLines_cons_blank rfl hP, List.append_nil]
      · refine ofLines_whole hl (fun hq => ?_) fun _ => hP
        subst hq
        exact hl.ordinary ((hblank rfl).resolve_left fun hn => hempty ⟨rfl, hn⟩) hcalm
    rw [List.cons_append, hline, ih hnext, ended_cons, ← List.append_assoc, ← List.append_assoc]

/-- The splitter takes kept lines as they are. -/
theorem Begun.ofLines (h : Begun ls quote) :
    ofLines semicolon [] none (ls ++ ls') = ofLines semicolon (ended ls) quote ls' := by
  obtain ⟨hkept, hfirst⟩ := h
  cases hkept with
  | nil => rfl
  | @cons _ quote₁ _ l ls hcalm _ hl hrest =>
    have hb := hfirst l rfl
    have hP : Text.blank ([] ++ l ++ ['\n']) = false := by
      rw [Text.blank_append, List.nil_append, hb, Bool.false_and]
    rw [List.cons_append, ofLines_whole hl (fun _ => hl.ordinary hb hcalm) (by simp [hb]),
      hrest.ofLines hP, ended_cons, List.nil_append]

/-- The last line of a text, which no line feed ends, after its kept lines. -/
structure Spelled (t : Text) (ls : List Text) (m : Text) (quote quote' : Option Char) : Prop where
  text : t = ended ls ++ m
  begun : Begun ls quote
  calm : Calm m
  not_blank : Text.blank m = false
  whole : Whole quote m quote'

/-- A text that the splitter takes as it is, `quote'` being open at its end. -/
def Taken (t : Text) (quote' : Option Char) : Prop :=
  ∃ ls m quote, Spelled t ls m quote quote'

/-- Without the blanks in front, the first line is still whole. -/
theorem Begun.trimStart (h : Begun ls quote) (hcalm : Calm m) (hm : Whole quote m quote')
    (hb : Text.blank (ended ls ++ m) = false) :
    ∃ ls₁ m₁, Text.trimStart (ended ls ++ m) = ended ls₁ ++ m₁ ∧ Begun ls₁ quote ∧ Calm m₁ ∧
      Whole quote m₁ quote' ∧ Text.blank (ended ls₁ ++ m₁) = false := by
  obtain ⟨hkept, hfirst⟩ := h
  cases hkept with
  | nil =>
    obtain ⟨b, c, u, rfl, hblank, hc⟩ := Text.exists_of_not_blank (t := m) hb
    refine ⟨[], c :: u, ?_, begun_nil, hcalm.of_blank_append hblank, hm.of_blank_append hblank,
      by simp [ended, Text.blank, hc]⟩
    exact (Text.trimStart_blank_append hblank _).trans (Text.trimStart_cons hc u)
  | @cons _ _ _ l ls hl _ hw hrest =>
    obtain ⟨b, c, u, rfl, hblank, hc⟩ := Text.exists_of_not_blank (hfirst l rfl)
    have hnot : Text.blank (c :: u) = false := by simp [Text.blank, hc]
    refine ⟨(c :: u) :: ls, m, ?_, ⟨.cons (hl.of_blank_append hblank) (fun _ => .inr hnot)
      (hw.of_blank_append hblank) hrest, by simpa using hnot⟩, hcalm, hm, ?_⟩
    · rw [ended_cons, ended_cons, List.append_assoc, List.append_assoc, List.append_assoc,
        Text.trimStart_blank_append hblank, List.cons_append, Text.trimStart_cons hc]
      simp
    · rw [ended_cons, Text.blank_append, Text.blank_append, Text.blank_append, hnot,
        Bool.false_and, Bool.false_and, Bool.false_and]

/-- Without the blanks behind it, a last line that is not blank is still whole. -/
theorem Begun.taken_trimEnd (h : Begun ls quote) (hcalm : Calm m) (hm : Whole quote m quote')
    (hb : Text.blank m = false) :
    ∃ quote₁, Taken (Text.trimEnd (ended ls ++ m)) quote₁ ∧ (quote' = none → quote₁ = none) := by
  obtain ⟨b, hmb, hblank⟩ := Text.exists_trimEnd m
  have htrim := Text.trimEnd_append hb (ended ls)
  have hnot : Text.blank (Text.trimEnd m) = false := by rw [Text.blank_trimEnd, hb]
  rw [hmb] at hcalm hm
  have hcalm' := hcalm.of_append_blank hblank
  cases quote' with
  | none =>
    exact ⟨none, ⟨ls, _, quote, htrim, h, hcalm', hnot, hm.of_append_blank hblank h.proper⟩,
      fun _ => rfl⟩
  | some q =>
    obtain ⟨quote₁, v, hw, -⟩ := hm.of_append
    exact ⟨quote₁, ⟨ls, _, quote, htrim, h, hcalm', hnot, hw⟩, fun hq => absurd hq (by simp)⟩

/-- Without the blanks behind it, a text ends in a line that is not blank. -/
theorem Begun.trimEnd (h : Begun ls quote) (hcalm : Calm m) (hm : Whole quote m quote')
    (hb : Text.blank (ended ls ++ m) = false) :
    ∃ quote₁, Taken (Text.trimEnd (ended ls ++ m)) quote₁ ∧ (quote' = none → quote₁ = none) := by
  induction ls using List.reverseRecOn generalizing quote m quote' with
  | nil => exact h.taken_trimEnd hcalm hm hb
  | append_singleton ls l ih =>
    cases hnot : Text.blank m with
    | false => exact h.taken_trimEnd hcalm hm hnot
    | true =>
      -- a blank line opens no quote, so the line before it is the last one
      have hquote := hm.quote_eq hnot h.proper
      obtain ⟨quote₁, hkept, hl, hw⟩ := h.kept.of_concat
      have hbegun : Begun ls quote₁ := ⟨hkept, fun k hk => h.first k (by
        rw [List.head?_append, Option.mem_def.1 hk]
        rfl)⟩
      have htext : ended (ls ++ [l]) ++ m = ended ls ++ l ++ ('\n' :: m) := by
        simp [ended]
      have hlast : Text.blank ('\n' :: m) = true :=
        (Text.blank_append ['\n'] m).trans (by rw [hnot]; rfl)
      rw [htext, Text.blank_append, hlast, Bool.and_true] at hb
      rw [htext, Text.trimEnd_append_blank hlast]
      obtain ⟨quote₂, ht, hq⟩ := ih hbegun hl hw hb
      exact ⟨quote₂, ht, fun hn => hq (hquote ▸ hn)⟩

private theorem Begun.trim (h : Begun ls quote) (hcalm : Calm m) (hm : Whole quote m quote')
    (hb : Text.blank (ended ls ++ m) = false) :
    ∃ quote₁, Taken (Text.trim (ended ls ++ m)) quote₁ ∧ (quote' = none → quote₁ = none) := by
  obtain ⟨ls₁, m₁, ht, hbegun, hcalm₁, hm₁, hb₁⟩ := h.trimStart hcalm hm hb
  rw [Text.trim, ht]
  exact hbegun.trimEnd hcalm₁ hm₁ hb₁

/-- A statement that a semicolon closed, with no quote open. -/
structure Sealed (s : Statement) : Prop where
  terminator : s.terminator = semicolon
  solid : Text.Solid s.text
  taken : Taken s.text none

/-- A statement that the end of the script closed. -/
structure Unsealed (s : Statement) : Prop where
  terminator : s.terminator = []
  solid : Text.Solid s.text
  taken : ∃ quote, Taken s.text quote

/-- Statements that are read back as they are. -/
inductive Canonical : List Statement → Prop
  | nil : Canonical []
  | last {s : Statement} (h : Unsealed s) : Canonical [s]
  | cons {s : Statement} {ss : List Statement} (h : Sealed s) (hs : Canonical ss) :
      Canonical (s :: ss)

private theorem Begun.canonical_closed (h : Begun ls quote) (hcalm : Calm m)
    (hm : Whole quote m none) {ss : List Statement} (hs : Canonical ss) :
    Canonical (closed semicolon (ended ls ++ m) ++ ss) := by
  cases hb : Text.blank (ended ls ++ m) with
  | true => rwa [closed_of_blank hb]
  | false =>
    obtain ⟨quote₁, ht, hq⟩ := h.trim hcalm hm hb
    obtain rfl := hq rfl
    rw [closed, hb]
    exact .cons ⟨rfl, Text.solid_trim hb, ht⟩ hs

private theorem Begun.canonical_end (h : Begun ls quote) : Canonical (closed [] (ended ls)) := by
  cases hb : Text.blank (ended ls) with
  | true =>
    rw [closed_of_blank hb]
    exact .nil
  | false =>
    rw [← List.append_nil (ended ls)] at hb
    obtain ⟨quote₁, ht, -⟩ := h.trim calm_nil (.nil _) hb
    rw [closed, ← List.append_nil (ended ls), hb]
    exact .last ⟨rfl, Text.solid_trim hb, quote₁, ht⟩

/-- The pieces of a line are whole, and so is what is left of it. -/
structure Pieced (quote : Option Char) (k : Cut) : Prop where
  open_ : k.closed = [] → Calm k.rest ∧ Whole quote k.rest k.quote
  first : ∀ p ∈ k.closed.head?, Calm p ∧ Whole quote p none
  later : ∀ p ∈ k.closed.tail, Calm p ∧ Whole none p none
  rest : k.closed ≠ [] → Calm k.rest ∧ Whole none k.rest k.quote

private theorem Calm.pieced (h : Calm l) (quote : Option Char) :
    Pieced quote (cut semicolon quote l) := by
  induction hn : l.length using Nat.strongRecOn generalizing l quote with
  | ind n ih =>
    obtain ⟨u, v, quote', rfl, hv, hu, hk⟩ | ⟨p, v, rfl, hp, hk⟩ := parted quote l
    · have hcalm : Calm u := by
        obtain rfl | ⟨w, rfl⟩ := hv
        · rwa [List.append_nil] at h
        · exact (h.of_append_cons (by decide)).1
      rw [hk]
      exact ⟨fun _ => ⟨hcalm, hu⟩, by simp, by simp, by simp⟩
    · obtain ⟨hcalm, hrest⟩ := h.of_append_cons (by decide)
      have hlen : v.length < n := by
        rw [← hn, List.length_append, List.length_cons]
        omega
      have hv := ih _ hlen hrest none rfl
      rw [hk]
      refine ⟨by simp, by simpa using ⟨hcalm, hp⟩, fun x hx => ?_, fun _ => ?_⟩
      · rw [List.tail_cons] at hx
        cases hc : (cut semicolon none v).closed with
        | nil => simp [hc] at hx
        | cons y ys =>
          rw [hc] at hx
          rcases List.mem_cons.1 hx with rfl | hx
          · exact hv.first x (by simp [hc])
          · exact hv.later x (by simpa [hc] using hx)
      · by_cases hc : (cut semicolon none v).closed = []
        · exact hv.open_ hc
        · exact hv.rest hc

/-- What a line that is neither blank nor a comment adds to the open statement is not blank. -/
theorem Ordinary.blank_rest (h : Ordinary l) (hc : (cut semicolon none l).closed = []) :
    Text.blank (cut semicolon none l).rest = false := by
  obtain ⟨u, v, quote', rfl, hv, -, hk⟩ | ⟨p, v, rfl, -, hk⟩ := parted none l
  · rw [hk]
    by_contra hb
    rw [Bool.not_eq_false] at hb
    obtain rfl | ⟨w, rfl⟩ := hv
    · exact absurd h.not_blank (by simp [hb])
    · have := (isPrefixOf_trim (w := '-' :: w) hb (by decide)).2 ⟨rfl, rfl⟩
      exact Bool.false_ne_true (h.not_comment.symm.trans this)
  · simp [hk] at hc

private theorem canonical_flatMap {ps : List Text} (hp : ∀ p ∈ ps, Calm p ∧ Whole none p none)
    {ss : List Statement} (hs : Canonical ss) :
    Canonical (ps.flatMap (closed semicolon) ++ ss) := by
  induction ps with
  | nil => exact hs
  | cons p ps ih =>
    obtain ⟨⟨hcalm, hw⟩, hrest⟩ := List.forall_mem_cons.1 hp
    rw [List.flatMap_cons, List.append_assoc]
    exact begun_nil.canonical_closed hcalm hw (ih hrest)

/-- What the splitter goes on with behind a terminator. -/
theorem begun_extended (hcalm : Calm m) (hm : Whole none m quote) :
    ∃ ls, extended [] m quote = ended ls ∧ Begun ls quote := by
  cases hb : Text.blank m with
  | true =>
    obtain rfl := hm.quote_eq hb (by simp [Proper])
    exact ⟨[], by rw [Statement.extended, hb]; rfl, begun_nil⟩
  | false =>
    exact ⟨[m], by simp [Statement.extended, hb, ended],
      begun_nil.concat hcalm (fun _ => .inr hb) hm⟩

/-- The open statement after one more line. -/
theorem Begun.extended (h : Begun ls quote) (hcalm : Calm m) (hm : Whole quote m quote')
    (hb : quote = none → Text.blank m = false) :
    Statement.extended (ended ls) m quote' = ended (ls ++ [m]) ∧ Begun (ls ++ [m]) quote' := by
  refine ⟨?_, h.concat hcalm (fun hq => .inr (hb hq)) hm⟩
  have hnot : (Text.blank m && Text.blank (ended ls)) = false := by
    cases hquote : quote with
    | none => rw [hb hquote, Bool.false_and]
    | some q =>
      have hne : ls ≠ [] := by
        rintro rfl
        cases h.kept
        simp at hquote
      rw [h.blank_ended, List.isEmpty_eq_false_iff.2 hne, Bool.and_false]
  rw [Statement.extended, hnot, ended_append]
  simp [ended]

/-- Each line leaves an open statement of kept lines, and closes statements that are read back. -/
theorem Begun.canonical_ofLines (h : Begun ls quote) (hcalm : ∀ l ∈ ls', Calm l) :
    Canonical (Statement.ofLines semicolon (ended ls) quote ls') := by
  induction ls' generalizing ls quote with
  | nil => exact h.canonical_end
  | cons l ls' ih =>
    obtain ⟨hl, hrest⟩ := List.forall_mem_cons.1 hcalm
    by_cases hcomment : (quote.isNone && ("--".toList).isPrefixOf (Text.trim l)) = true
    · rw [Statement.ofLines, if_pos hcomment]
      exact ih h hrest
    by_cases hblank : (quote.isNone && Text.blank l) = true
    · rw [Statement.ofLines, if_neg hcomment, if_pos hblank, h.blank_ended]
      obtain rfl : quote = none := by simpa using (Bool.and_eq_true_iff.1 hblank).1
      by_cases hls : ls = []
      · subst hls
        exact ih h hrest
      · have hnext : ended ls ++ ['\n'] = ended (ls ++ [[]]) := by simp [ended]
        rw [List.isEmpty_eq_false_iff.2 hls, if_neg Bool.false_ne_true, hnext]
        exact ih (h.concat calm_nil (fun _ => .inl ⟨rfl, hls⟩) (.nil _)) hrest
    · have hordinary : quote = none → Ordinary l := by
        rintro rfl
        rw [Option.isNone_none, Bool.true_and, Bool.not_eq_true] at hcomment hblank
        exact ⟨hblank, hcomment, hl.undirected.directive?⟩
      have hpieced := hl.pieced quote
      rw [ofLines_scan hordinary]
      cases hk : (cut semicolon quote l).closed with
      | nil =>
        obtain ⟨hcalm', hw⟩ := hpieced.open_ hk
        obtain ⟨hext, hbegun⟩ := h.extended hcalm' hw fun hq => by
          subst hq
          exact (hordinary rfl).blank_rest hk
        simp only [hext]
        exact ih hbegun hrest
      | cons p ps =>
        obtain ⟨hp, hw⟩ := hpieced.first p (by simp [hk])
        obtain ⟨hcalm', hw'⟩ := hpieced.rest (by simp [hk])
        obtain ⟨ls₁, hext, hbegun⟩ := begun_extended hcalm' hw'
        simp only [hext, List.append_assoc]
        refine h.canonical_closed hp hw (canonical_flatMap (fun x hx => ?_) (ih hbegun hrest))
        exact hpieced.later x (by simpa [hk] using hx)

private theorem canonical_split {script : Text} (h : Undirected script) :
    Canonical (split script) :=
  begun_nil.canonical_ofLines (calm_lines h)

section
variable {s : Statement} {ss : List Statement}

private theorem pieces_ended (hls : ∀ l ∈ ls, Calm l) (hm : '\n' ∉ m) :
    Text.pieces (· == '\n') (ended ls ++ m) = ls ++ [m] := by
  have hpiece : ∀ {u : Text}, '\n' ∉ u → ∀ c ∈ u, (c == '\n') = false := fun hu c hc => by
    have : c ≠ '\n' := by
      rintro rfl
      exact hu hc
    simpa using this
  induction ls with
  | nil => exact Text.pieces_of_forall (hpiece hm)
  | cons l ls ih =>
    obtain ⟨hl, hrest⟩ := List.forall_mem_cons.1 hls
    rw [ended_cons, List.append_assoc, List.append_assoc, List.singleton_append,
      Text.pieces_append_cons (by simp), Text.pieces_of_forall (hpiece hl.not_newline), ih hrest]
    rfl

private theorem Spelled.ofLines_semicolon {t : Text} (h : Spelled t ls m quote none) :
    Statement.ofLines semicolon [] none (ls ++ (m ++ [';']) :: ls') =
      closed semicolon t ++ Statement.ofLines semicolon [] none ls' := by
  rw [h.begun.ofLines, ofLines_scan fun hq => ?_, h.whole.cut_semicolon]
  · simp [Statement.extended, Text.blank, h.text]
  · subst hq
    exact h.whole.ordinary_semicolon h.not_blank h.calm

private theorem Spelled.ofLines_end {t : Text} (h : Spelled t ls m quote quote') :
    Statement.ofLines semicolon [] none (ls ++ [m]) = closed [] t := by
  rw [h.begun.ofLines, ofLines_whole h.whole (fun hq => ?_) (by simp [h.not_blank]),
    Statement.ofLines, closed_append_blank _ _ (by decide), h.text]
  subst hq
  exact h.whole.ordinary h.not_blank h.calm

private theorem closed_solid (hs : Text.Solid s.text) : closed s.terminator s.text = [s] := by
  rw [closed, hs.blank, hs.trim]
  rfl

/-- The statements of a script one after the other, each on lines of its own. -/
def joined (ss : List Statement) : Text := ss.flatMap fun s => s.text ++ s.terminator ++ ['\n']

private theorem joined_cons (s : Statement) (ss : List Statement) :
    joined (s :: ss) = (s.text ++ s.terminator) ++ '\n' :: joined ss := by
  simp [joined]

private theorem Canonical.ofLines_joined (h : Canonical ss) :
    Statement.ofLines semicolon [] none (linesOf (joined ss)) = ss := by
  induction h with
  | nil => rfl
  | @last s hs =>
    obtain ⟨quote', ls, m, quote, ht⟩ := hs.taken
    rw [joined_cons, linesOf_append, hs.terminator, List.append_nil]
    conv_lhs => rw [ht.text]
    rw [pieces_ended ht.begun.kept.calm ht.calm.not_newline,
      show linesOf (joined []) = [] from rfl, List.append_nil, ht.ofLines_end, ← hs.terminator,
      closed_solid hs.solid]
  | @cons s ss hs _ ih =>
    obtain ⟨ls, m, quote, ht⟩ := hs.taken
    have hm : '\n' ∉ m ++ [';'] := by simp [ht.calm.not_newline]
    rw [joined_cons, linesOf_append, hs.terminator]
    conv_lhs => rw [ht.text]
    rw [List.append_assoc, pieces_ended ht.begun.kept.calm hm, List.append_assoc,
      List.singleton_append, ht.ofLines_semicolon, ih, ← hs.terminator, closed_solid hs.solid]
    rfl

private theorem Taken.not_return {t : Text} (h : Taken t quote) : '\r' ∉ t := by
  obtain ⟨ls, m, quote, ht⟩ := h
  rw [ht.text, List.mem_append, ended, List.mem_flatMap]
  rintro (⟨l, hl, hr⟩ | hr)
  · simp only [List.mem_append, List.mem_singleton] at hr
    exact (ht.begun.kept.calm l hl).not_return (hr.resolve_right (by decide))
  · exact ht.calm.not_return hr

private theorem Canonical.not_return (h : Canonical ss) : '\r' ∉ joined ss := by
  induction h with
  | nil => simp [joined]
  | last hs =>
    obtain ⟨quote, ht⟩ := hs.taken
    simp [joined, hs.terminator, ht.not_return]
  | cons hs _ ih =>
    rw [joined_cons, hs.terminator]
    simp [hs.taken.not_return, ih]

private theorem Canonical.split_joined (h : Canonical ss) : split (joined ss) = ss := by
  rw [split, show lines (joined ss) = linesOf (lineFeeds (joined ss)) from rfl,
    lineFeeds_of_not_mem h.not_return]
  exact h.ofLines_joined

private theorem Canonical.solid (h : Canonical ss) : ∀ s ∈ ss, Text.Solid s.text := by
  induction h with
  | nil => simp
  | last hs => simpa using hs.solid
  | cons hs _ ih => exact List.forall_mem_cons.2 ⟨hs.solid, ih⟩

private theorem Canonical.terminator (h : Canonical ss) :
    (∀ s ∈ ss.dropLast, s.terminator = semicolon) ∧
      ∀ s ∈ ss.getLast?, s.terminator = semicolon ∨ s.terminator = [] := by
  induction h with
  | nil => simp
  | last hs => simpa using .inr hs.terminator
  | @cons s ss hs h ih =>
    cases ss with
    | nil => simpa using .inl hs.terminator
    | cons s' ss =>
      rw [List.dropLast_cons_of_ne_nil (by simp), List.getLast?_cons_cons]
      exact ⟨List.forall_mem_cons.2 ⟨hs.terminator, ih.1⟩, ih.2⟩

end

end

/-- The statements of a script without the word `delimiter` begin and end with no blank, and only
the last of them may have no semicolon. Joined again they are split into the same statements. -/
theorem split_joined_split {script : Text} (h : Undirected script) :
    (∀ s ∈ split script, Text.Solid s.text) ∧
      (∀ s ∈ (split script).dropLast, s.terminator = ";".toList) ∧
      (∀ s ∈ (split script).getLast?, s.terminator = ";".toList ∨ s.terminator = []) ∧
      split ((split script).flatMap fun s => s.text ++ s.terminator ++ ['\n']) = split script := by
  have hcanonical := canonical_split h
  obtain ⟨hinit, hlast⟩ := hcanonical.terminator
  exact ⟨hcanonical.solid, hinit, hlast, hcanonical.split_joined⟩

/-- The script has a comment, a literal over two lines, a blank line and a quote left open. -/
theorem split_joined_split_open :
    let script : Text := "-- a;\r\nDROP a; SELECT ';\n  b' -- c\n \n , 1;\n SELECT 'd \n "
    Undirected script ∧
      split script = [⟨"DROP a", ";"⟩, ⟨"SELECT ';\n  b' \n\n , 1", ";"⟩, ⟨"SELECT 'd", []⟩] ∧
      split ((split script).flatMap fun s => s.text ++ s.terminator ++ ['\n']) = split script := by
  intro script
  have hword : Undirected script := by decide +kernel
  exact ⟨hword, by decide +kernel, (split_joined_split hword).2.2.2⟩

end TableDialects.Statement
