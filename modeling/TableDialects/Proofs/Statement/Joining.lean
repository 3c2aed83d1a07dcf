import TableDialects.Proofs.Statement.Comment
import TableDialects.Proofs.Statement.Groups

/-!
# Scripts one after the other

When every statement of a script is closed and its last line ends, the splitter is at the start
again: no quote is open and nothing but blanks is pending. So the statements and the report of two
scripts one after the other are made of those of each.
-/
namespace TableDialects

namespace Statement

private theorem lineFeeds_append {u : Text} (hu : u.getLast? ≠ some '\r') (v : Text) :
    lineFeeds (u ++ v) = lineFeeds u ++ lineFeeds v := by
  fun_induction lineFeeds u with
  | case1 => rfl
  | case2 cs ih =>
    have hcs : cs.getLast? ≠ some '\r' := by
      intro h
      simp [List.getLast?_cons, h] at hu
    rw [List.cons_append, List.cons_append, lineFeeds, ih hcs, List.cons_append]
  | case3 cs hcs ih =>
    have hne : cs ≠ [] := by
      rintro rfl
      exact hu rfl
    rw [List.cons_append, lineFeeds, ih]
    · rfl
    · simpa [List.getLast?_cons_of_ne_nil hne] using hu
    · intro t ht
      cases cs with
      | nil => exact hne rfl
      | cons e cs => exact hcs cs (by rw [(List.cons.inj ht).1])
  | case4 c cs h₁ h₂ ih =>
    rw [List.cons_append, lineFeeds, ih]
    · rfl
    · intro h
      simp [List.getLast?_cons, h] at hu
    · exact fun _ he => absurd he h₂
    · exact h₂

private theorem lineFeeds_concat (u : Text) : ∃ v, lineFeeds (u ++ ['\n']) = v ++ ['\n'] := by
  fun_induction lineFeeds u with
  | case1 => exact ⟨[], rfl⟩
  | case2 cs ih =>
    obtain ⟨v, hv⟩ := ih
    exact ⟨'\n' :: v, by simp [lineFeeds, hv]⟩
  | case3 cs hcs ih =>
    obtain ⟨v, hv⟩ := ih
    by_cases hne : cs = []
    · subst hne
      exact ⟨[], rfl⟩
    · refine ⟨'\n' :: v, ?_⟩
      rw [List.cons_append, lineFeeds, hv, List.cons_append]
      intro t ht
      obtain ⟨e, cs, rfl⟩ := List.exists_cons_of_ne_nil hne
      exact hcs cs (by rw [(List.cons.inj ht).1])
  | case4 c cs h₁ h₂ ih =>
    obtain ⟨v, hv⟩ := ih
    refine ⟨c :: v, ?_⟩
    rw [List.cons_append, lineFeeds, hv, List.cons_append]
    · exact fun _ he => absurd he h₂
    · exact h₂

/-- A script that ends with a line feed keeps its lines whatever follows it. -/
theorem lines_append {A : Text} (hA : A = [] ∨ A.getLast? = some '\n') (B : Text) :
    lines (A ++ B) = lines A ++ lines B := by
  rcases hA with rfl | hA
  · rfl
  · have hfeeds : lineFeeds (A ++ B) = lineFeeds A ++ lineFeeds B :=
      lineFeeds_append (by simp [hA]) B
    obtain ⟨u, rfl⟩ : ∃ u, A = u ++ ['\n'] := by
      obtain ⟨u, hu⟩ := List.getLast?_eq_some_iff.1 hA
      exact ⟨u, hu⟩
    obtain ⟨v, hv⟩ := lineFeeds_concat u
    change linesOf _ = linesOf _ ++ linesOf _
    rw [hfeeds, hv, List.append_assoc, List.singleton_append, linesOf_append, linesOf_append,
      linesOf_nil, List.append_nil]

private theorem closed_prepend_eq_nil {k : Cut} {t : Text} :
    (k.prepend t).closed = [] ↔ k.closed = [] := by
  cases h : k.closed with
  | nil => simp [Cut.prepend, h]
  | cons p ps => simp [Cut.prepend, h]

private theorem quote_prepend (k : Cut) (t : Text) : (k.prepend t).quote = k.quote := by
  unfold Cut.prepend
  split <;> rfl

private theorem blank_rest_prepend {k : Cut} {t : Text} (h : Text.blank k.rest = false) :
    Text.blank (k.prepend t).rest = false := by
  unfold Cut.prepend
  split
  · rw [Text.blank_append, h, Bool.and_false]
  · exact h

/-- A quote that is open at the end of a line was open before it, or the rest of the line after
its last terminator holds it. -/
theorem cut_open (term : Text) (quote : Option Char) (line : Text) :
    (cut term quote line).quote = none ∨
      quote.isSome = true ∧ (cut term quote line).closed = [] ∨
      Text.blank (cut term quote line).rest = false := by
  fun_induction cut term quote line with
  | case1 quote => cases quote <;> simp
  | case2 q c cs he ih =>
    rw [quote_prepend, closed_prepend_eq_nil]
    exact ih.imp id (Or.imp (fun h => ⟨rfl, h.2⟩) blank_rest_prepend)
  | case3 q c cs he ih =>
    rw [quote_prepend, closed_prepend_eq_nil]
    exact ih.imp id (Or.imp (fun h => ⟨rfl, h.2⟩) blank_rest_prepend)
  | case4 c cs hq ih =>
    rw [quote_prepend]
    refine ih.imp id fun h => .inr ?_
    rcases h with ⟨-, hnil⟩ | hrest
    · -- nothing closes the statement behind the quote, so it is in the rest
      have hc : Text.isBlank c = false := by
        simp only [Token.isQuote, Bool.or_eq_true, beq_iff_eq] at hq
        rcases hq with (rfl | rfl) | rfl <;> decide
      simp [Cut.prepend, hnil, Text.blank, hc]
    · exact blank_rest_prepend hrest
  | case5 => exact .inl rfl
  | case6 c cs hq hd ht k ih =>
    rcases ih with h | ⟨h, -⟩ | h
    · exact .inl h
    · exact absurd h (by simp)
    · exact .inr (.inr h)
  | case7 c cs hq hd ht ih =>
    rw [quote_prepend]
    rcases ih with h | ⟨h, -⟩ | h
    · exact .inl h
    · exact absurd h (by simp)
    · exact .inr (.inr (blank_rest_prepend h))

/-- While a quote is open the open statement is not blank. -/
def Pending (P : Text) (quote : Option Char) : Prop := quote.isSome = true → Text.blank P = false

private theorem Pending.extended {P rest : Text} {quote : Option Char}
    (h : quote = none ∨ Text.blank P = false ∨ Text.blank rest = false) :
    Pending (extended P rest quote) quote := by
  intro hquote
  obtain ⟨q, rfl⟩ := Option.isSome_iff_exists.1 hquote
  have hbody : (Text.blank P && Text.blank rest) = false := by
    rcases h with h | h | h
    · exact absurd h (by simp)
    · rw [h, Bool.false_and]
    · rw [h, Bool.and_false]
  rw [Statement.extended, Option.isNone_some, Bool.and_false, if_neg Bool.false_ne_true,
    Text.blank_append, Text.blank_append, hbody, Bool.false_and]

/-- When all statements of the lines end with a terminator, the splitter goes on behind them as at
the start. -/
theorem ofLines_append {term P : Text} {quote : Option Char} {ls : List Text} (ls' : List Text)
    (hterm : term ≠ []) (hdirective : ∀ l ∈ ls, directive? l = none) (hP : Pending P quote)
    (hclosed : ∀ s ∈ ofLines term P quote ls, s.terminator = term) :
    ofLines term P quote (ls ++ ls') = ofLines term P quote ls ++ ofLines term [] none ls' := by
  induction ls generalizing P quote with
  | nil =>
    have hblank : Text.blank P = true := by
      by_contra hb
      rw [Bool.not_eq_true] at hb
      have hlast : ofLines term P quote [] = [⟨Text.trim P, []⟩] := by simp [ofLines, closed, hb]
      exact hterm (hclosed ⟨Text.trim P, []⟩ (by simp [hlast])).symm
    have hquote : quote = none := by
      cases quote with
      | none => rfl
      | some q => exact absurd hblank (by simp [hP rfl])
    rw [List.nil_append, hquote, ofLines_of_blank term none ls' hblank, ofLines,
      closed_of_blank hblank, List.nil_append]
  | cons line ls ih =>
    have hrest : ∀ l ∈ ls, directive? l = none := fun l hl =>
      hdirective l (List.mem_cons_of_mem line hl)
    have hline := hdirective line List.mem_cons_self
    rw [List.cons_append, ofLines, ofLines]
    rw [ofLines] at hclosed
    by_cases hc : (quote.isNone && ("--".toList).isPrefixOf (Text.trim line)) = true
    · simp only [hc, if_true] at hclosed ⊢
      exact ih hrest hP hclosed
    by_cases hb : (quote.isNone && Text.blank line) = true
    · simp only [hc, hb, Bool.false_eq_true, if_true, if_false] at hclosed ⊢
      have hquote : quote = none := by
        simpa using (Bool.and_eq_true_iff.1 hb).1
      exact ih hrest (by simp [Pending, hquote]) hclosed
    · simp only [hc, hb, hline, ite_self, Bool.false_eq_true, if_false] at hclosed ⊢
      have hopen := cut_open term quote line
      cases hk : (cut term quote line).closed with
      | nil =>
        simp only [hk] at hclosed ⊢
        refine ih hrest (Pending.extended ?_) hclosed
        exact hopen.imp id (Or.imp (fun h => hP h.1) id)
      | cons p ps =>
        simp only [hk, List.mem_append] at hclosed ⊢
        rw [List.append_assoc _ _ (ofLines term [] none ls'),
          ih hrest (Pending.extended ?_) fun s hs => hclosed s (.inr hs)]
        exact hopen.imp id (Or.imp (fun h => absurd h.2 (by simp [hk])) id)

/-- A break more or less between two pieces is no difference. -/
theorem pieces_lineFeeds {isBreak : Char → Bool} (hreturn : isBreak '\r' = true)
    (hnewline : isBreak '\n' = true) (t : Text) :
    ∃ p ps qs, Text.pieces isBreak t = p :: ps ∧
      Text.pieces isBreak (lineFeeds t) = p :: qs ∧
      ps.filter (!·.isEmpty) = qs.filter (!·.isEmpty) := by
  fun_induction lineFeeds t with
  | case1 => exact ⟨[], [], [], rfl, rfl, rfl⟩
  | case2 cs ih =>
    obtain ⟨p, ps, qs, ht, hf, he⟩ := ih
    exact ⟨[], [] :: p :: ps, p :: qs, by simp [Text.pieces, hreturn, hnewline, ht],
      by simp [Text.pieces, hnewline, hf], by simp [List.filter_cons, he]⟩
  | case3 cs _ ih =>
    obtain ⟨p, ps, qs, ht, hf, he⟩ := ih
    exact ⟨[], p :: ps, p :: qs, by simp [Text.pieces, hreturn, ht],
      by simp [Text.pieces, hnewline, hf], by simp [List.filter_cons, he]⟩
  | case4 c cs _ _ ih =>
    obtain ⟨p, ps, qs, ht, hf, he⟩ := ih
    by_cases hc : isBreak c = true
    · exact ⟨[], p :: ps, p :: qs, by simp [Text.pieces, hc, ht], by simp [Text.pieces, hc, hf],
        by simp [List.filter_cons, he]⟩
    · exact ⟨c :: p, ps, qs, by simp [Text.pieces, hc, ht, Text.consHead],
        by simp [Text.pieces, hc, hf, Text.consHead], he⟩

private theorem words_lineFeeds (t : Text) : Text.words (lineFeeds t) = Text.words t := by
  obtain ⟨p, ps, qs, ht, hf, he⟩ := @pieces_lineFeeds Text.isBlank (by decide) (by decide) t
  simp only [Text.words, ht, hf, List.filter_cons, he]

/-- What the parts of a text on both sides of a line feed inherit, its lines inherit. -/
theorem forall_linesOf {p : Text → Prop} (hp : ∀ u v, p (u ++ '\n' :: v) → p u ∧ p v) {t : Text}
    (ht : p t) : ∀ l ∈ linesOf t, p l := by
  induction hn : t.length using Nat.strongRecOn generalizing t with
  | ind n ih =>
    by_cases hne : t = []
    · simp [hne, linesOf_nil]
    · rw [linesOf_of_ne_nil hne]
      rcases eq_firstLine t with h | h
      · have hafter : afterLine t = [] := by
          rw [h]
          exact afterLine_of_not_mem (not_mem_firstLine t)
        rw [hafter, linesOf_nil, ← h]
        simpa using ht
      · have hlen : (afterLine t).length < n := by
          have := congrArg List.length h
          simp only [List.length_append, List.length_cons] at this
          omega
        rw [h] at ht
        obtain ⟨hfirst, hafter⟩ := hp _ _ ht
        exact List.forall_mem_cons.2 ⟨hfirst, ih _ hlen hafter rfl⟩

private theorem mem_words_linesOf {t l w : Text} (hl : l ∈ linesOf t) (hw : w ∈ Text.words l) :
    w ∈ Text.words t := by
  refine forall_linesOf (p := fun u => ∀ w ∈ Text.words u, w ∈ Text.words t) (fun u v h => ?_)
    (fun w hw => hw) l hl w hw
  rw [Text.words_append_cons (by decide)] at h
  exact ⟨fun w hw => h w (List.mem_append_left _ hw), fun w hw => h w (List.mem_append_right _ hw)⟩

/-- A script without the word is one without directives. -/
theorem directive?_of_mem_lines {t l : Text}
    (h : ∀ w ∈ Text.words t, Text.same w "delimiter" = false) (hl : l ∈ lines t) :
    directive? l = none := by
  refine directive?_eq_none fun w hw => h w ?_
  rw [← words_lineFeeds]
  exact mem_words_linesOf hl hw

end Statement

namespace Report

open Statement

/-- A script whose statements are all closed by semicolons and whose last line ends composes with
every script after it: neither the statements nor the tables nor the problems of one depend on the
other. It does not hold the word `delimiter`. -/
theorem ofScript_append {A : Text} (hend : A = [] ∨ A.getLast? = some '\n')
    (hword : ∀ w ∈ Text.words A, Text.same w "delimiter" = false)
    (hclosed : ∀ s ∈ split A, s.terminator = ";".toList) (B : Text) :
    split (A ++ B) = split A ++ split B ∧
      (ofScript (A ++ B)).tables = (ofScript A).tables ++ (ofScript B).tables ∧
      (ofScript (A ++ B)).diagnostics = (ofScript A).diagnostics ++
        (ofScript B).diagnostics.map fun d =>
          { d with statement := d.statement + (split A).length } := by
  have hsplit : split (A ++ B) = split A ++ split B := by
    rw [split, lines_append hend]
    apply ofLines_append
    · exact List.cons_ne_nil _ _
    · exact fun l hl => directive?_of_mem_lines hword hl
    · exact fun h => absurd h (by simp)
    · exact hclosed
  have happend := ofOutcomes_append 0 ((split A).map fun s => Table.read s.text)
    ((split B).map fun s => Table.read s.text)
  rw [← List.map_append, ← hsplit, List.length_map] at happend
  exact ⟨hsplit, happend⟩

/-- The first script has comments, a literal over two lines and two statements in one line. -/
theorem ofScript_append_literal :
    let A : Text := "-- a;\nCREATE TABLE a (id INT); SELECT ';\n' -- b\n;\n \n  -- c;\n"
    let B : Text := "DROP TABLE b;\nCREATE TABLE c (id INT, g GEOMETRY)"
    A.getLast? = some '\n' ∧ (∀ w ∈ Text.words A, Text.same w "delimiter" = false) ∧
      (∀ s ∈ split A, s.terminator = ";".toList) ∧
      (ofScript (A ++ B)).tables.map (·.name) = ["a".toList, "c".toList] ∧
      (ofScript (A ++ B)).diagnostics =
        [⟨1, .noTable⟩, ⟨2, .noTable⟩, ⟨3, .unrecognizedType "g" "GEOMETRY"⟩] := by
  intro A B
  have hend : A.getLast? = some '\n' := by decide +kernel
  have hword : ∀ w ∈ Text.words A, Text.same w "delimiter" = false := by decide +kernel
  have hclosed : ∀ s ∈ split A, s.terminator = ";".toList := by decide +kernel
  obtain ⟨-, htables, hdiagnostics⟩ := ofScript_append (.inr hend) hword hclosed B
  refine ⟨hend, hword, hclosed, ?_, ?_⟩
  · rw [htables]
    decide +kernel
  · rw [hdiagnostics]
    decide +kernel

end Report

end TableDialects
