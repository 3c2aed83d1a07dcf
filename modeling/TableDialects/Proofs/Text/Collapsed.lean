import TableDialects.Proofs.ColumnType.Phrase
import TableDialects.Proofs.Text.Doubled

/-!
# Collapsed texts

A text with one space between its words keeps its first and its last character, and its words. It
is the text with a space for each run of blanks.
-/
namespace TableDialects.Text

theorem join_append {s : Text} {as bs : List Text} (ha : as ≠ []) (hb : bs ≠ []) :
    join s (as ++ bs) = join s as ++ (s ++ join s bs) := by
  induction as with
  | nil => exact absurd rfl ha
  | cons a as ih =>
    cases as with
    | nil =>
      obtain ⟨b, bs, rfl⟩ := List.exists_cons_of_ne_nil hb
      rw [List.singleton_append, join_cons_cons]
      simp [join]
    | cons c as =>
      rw [List.cons_append, List.cons_append, join_cons_cons, ← List.cons_append, ih (by simp),
        join_cons_cons]
      simp

theorem Solid.words_ne_nil {t : Text} (h : Solid t) : words t ≠ [] := by
  obtain ⟨c, t, rfl, hc⟩ := h.exists_cons
  obtain ⟨w, ws, hw⟩ := words_cons hc t
  simp [hw]

theorem Solid.head?_collapsed {t : Text} (h : Solid t) : (collapsed t).head? = t.head? := by
  obtain ⟨c, t, rfl, hc⟩ := h.exists_cons
  obtain ⟨u, hu⟩ := collapsed_cons hc t
  rw [hu]
  rfl

theorem solid_collapsed {t : Text} (h : Solid t) : Solid (collapsed t) :=
  solid_join h.words_ne_nil _ fun _ hw => solid_of_mem_words hw

theorem words_join {ws : List Text} (h : ∀ w ∈ ws, w ≠ [] ∧ ∀ c ∈ w, isBlank c = false) :
    words (join [' '] ws) = ws := by
  induction ws with
  | nil => rfl
  | cons w ws ih =>
    obtain ⟨hne, hw⟩ := h w List.mem_cons_self
    have hself := words_of_forall hne hw
    cases ws with
    | nil => simpa [join] using hself
    | cons v ws =>
      have hrest := ih fun u hu => h u (List.mem_cons_of_mem w hu)
      rw [join_cons_cons, List.append_assoc, List.singleton_append, words_append_cons rfl, hself,
        hrest]
      rfl

theorem collapsed_collapsed (t : Text) : collapsed (collapsed t) = collapsed t := by
  have hwords : words (collapsed t) = words t := by
    refine words_join fun w hw => ?_
    rw [words, List.mem_filter] at hw
    exact ⟨by simpa using hw.2, eq_false_of_mem_pieces hw.1⟩
  rw [collapsed, hwords, collapsed]

theorem collapsed_of_forall {t : Text} (h : ∀ c ∈ t, isBlank c = false) : collapsed t = t := by
  by_cases hne : t = []
  · rw [hne]
    rfl
  · rw [collapsed, words_of_forall hne h]
    simp [join]

/-- Within a word nothing is collapsed. -/
theorem collapsed_cons_cons {c d : Char} (hc : isBlank c = false) (hd : isBlank d = false)
    (t : Text) : collapsed (c :: d :: t) = c :: collapsed (d :: t) := by
  obtain ⟨w, ws, hw⟩ : ∃ w ws, words (d :: t) = (d :: w) :: ws ∧
      words (c :: d :: t) = (c :: d :: w) :: ws := by
    cases h : pieces isBlank t with
    | nil => exact absurd h (pieces_ne_nil t)
    | cons p ps => exact ⟨p, ps.filter (!·.isEmpty), by simp [words, pieces, hc, hd, h, consHead]⟩
  rw [collapsed, collapsed, hw.1, hw.2]
  cases ws with
  | nil => simp [join]
  | cons v ws => simp [join_cons_cons]

theorem collapsed_append_cons {w : Text} (hw : ∀ c ∈ w, isBlank c = false) {c : Char}
    (hc : isBlank c = false) (t : Text) : collapsed (w ++ c :: t) = w ++ collapsed (c :: t) := by
  induction w with
  | nil => rfl
  | cons d w ih =>
    have hrec := ih fun e he => hw e (List.mem_cons_of_mem d he)
    have hd := hw d List.mem_cons_self
    rw [List.cons_append, List.cons_append, ← hrec]
    cases w with
    | nil => exact collapsed_cons_cons hd hc t
    | cons e w => exact collapsed_cons_cons hd (hw e (by simp)) _

/-- A text is one word, or its last word follows a blank. -/
theorem exists_last_word (t : Text) : (∀ c ∈ t, isBlank c = false) ∨
    ∃ a b w, t = a ++ b :: w ∧ isBlank b = true ∧ ∀ c ∈ w, isBlank c = false := by
  induction t with
  | nil => exact .inl (List.forall_mem_nil _)
  | cons c t ih =>
    rcases ih with ht | ⟨a, b, w, rfl, hb, hw⟩
    · cases hc : isBlank c with
      | true => exact .inr ⟨[], c, t, rfl, hc, ht⟩
      | false => exact .inl (List.forall_mem_cons.2 ⟨hc, ht⟩)
    · exact .inr ⟨c :: a, b, w, rfl, hb, hw⟩

theorem Solid.getLast?_collapsed {t : Text} (h : Solid t) :
    (collapsed t).getLast? = t.getLast? := by
  rcases exists_last_word t with ht | ⟨a, b, w, rfl, hb, hw⟩
  · rw [collapsed_of_forall ht]
  · have hne : w ≠ [] := by
      rintro rfl
      have hlast : (a ++ [b]).getLast? = some b := List.getLast?_concat
      exact absurd (h.last b hlast) (by simp [hb])
    have hlast : (a ++ b :: w).getLast? = w.getLast? := by
      rw [← List.singleton_append, ← List.append_assoc, List.getLast?_append_of_ne_nil _ hne]
    rw [collapsed, words_append_cons hb, words_of_forall hne hw, hlast]
    by_cases ha : words a = []
    · simp [ha, join]
    · rw [join_append ha (by simp), ← List.append_assoc,
        List.getLast?_append_of_ne_nil _ (by simpa [join] using hne)]
      simp [join]

/-- The text with a space for each run of blanks. -/
def squeezed : Text → Text
  | [] => []
  | c :: t =>
    if isBlank c = false then c :: squeezed t
    else if t.head?.any isBlank then squeezed t
    else ' ' :: squeezed t

theorem squeezed_cons {c : Char} (hc : isBlank c = false) (t : Text) :
    squeezed (c :: t) = c :: squeezed t := if_pos hc

/-- Only the last blank of a run counts. -/
theorem squeezed_blank_cons {b : Char} (hb : isBlank b = true) {t : Text}
    (ht : t.head?.any isBlank = true) : squeezed (b :: t) = squeezed t := by
  rw [squeezed, if_neg (by simp [hb]), if_pos ht]

theorem squeezed_blank {b : Char} (hb : isBlank b = true) {t : Text}
    (ht : t.head?.any isBlank = false) : squeezed (b :: t) = ' ' :: squeezed t := by
  rw [squeezed, if_neg (by simp [hb]), if_neg (by simp [ht])]

theorem squeezed_append (t : Text) {u : Text} (hu : u.head?.any isBlank = false) :
    squeezed (t ++ u) = squeezed t ++ squeezed u := by
  induction t with
  | nil => rfl
  | cons c t ih =>
    have hhead : (t ++ u).head?.any isBlank = t.head?.any isBlank := by
      cases t with
      | nil => exact hu
      | cons d t => rfl
    simp only [List.cons_append, squeezed, hhead, ih]
    split
    · rfl
    · split <;> rfl

theorem head?_squeezed (t : Text) : (squeezed t).head?.any isBlank = t.head?.any isBlank := by
  fun_induction squeezed t with
  | case1 => rfl
  | case2 => rfl
  | case3 c t hc ht ih => simpa [ih, ht] using hc
  | case4 c t hc _ => simpa [show isBlank ' ' = true from rfl] using hc

/-- Before its first blank a text is not changed. -/
theorem exists_of_squeezed {a u : Text} (ha : ∀ d ∈ a, isBlank d = false) {t : Text}
    (h : squeezed t = a ++ u) : ∃ s, t = a ++ s ∧ squeezed s = u := by
  induction a generalizing t with
  | nil => exact ⟨t, rfl, h⟩
  | cons e a ih =>
    obtain ⟨he, htail⟩ := List.forall_mem_cons.1 ha
    cases t with
    | nil => cases h
    | cons d t =>
      have hd : isBlank d = false := by
        have := head?_squeezed (d :: t)
        rw [h] at this
        simpa [he] using this.symm
      rw [squeezed_cons hd] at h
      obtain ⟨rfl, hu⟩ := List.cons.inj h
      obtain ⟨s, rfl, hs⟩ := ih htail hu
      exact ⟨s, rfl, hs⟩

theorem squeezed_eq_nil {t : Text} (h : squeezed t = []) : t = [] := by
  cases t with
  | nil => rfl
  | cons c t =>
    have hhead := head?_squeezed (c :: t)
    cases hc : isBlank c with
    | true => simp [h, hc] at hhead
    | false => simp [squeezed_cons hc] at h

theorem squeezed_doubled {q : Char} (hq : isBlank q = false) (t : Text) :
    squeezed (doubled q t) = doubled q (squeezed t) := by
  induction t with
  | nil => rfl
  | cons c t ih =>
    cases hc : isBlank c with
    | false =>
      rw [squeezed_cons hc, doubled_cons, doubled_cons]
      split <;> simp [squeezed_cons, hq, hc, ih]
    | true =>
      have hne : ∀ d, isBlank d = true → d ≠ q := by
        rintro d hd rfl
        simp [hq] at hd
      have hhead : (doubled q t).head?.any isBlank = t.head?.any isBlank := by
        cases t with
        | nil => rfl
        | cons d t =>
          rw [doubled_cons]
          split
          · next hd => simp [hd]
          · rfl
      rw [doubled_cons, if_neg (hne c hc), List.singleton_append]
      cases ht : t.head?.any isBlank with
      | true => rw [squeezed_blank_cons hc ht, squeezed_blank_cons hc (hhead.trans ht), ih]
      | false =>
        rw [squeezed_blank hc ht, squeezed_blank hc (hhead.trans ht), ih, doubled_cons,
          if_neg (hne ' ' rfl), List.singleton_append]

theorem length_squeezed_le (t : Text) : (squeezed t).length ≤ t.length := by
  fun_induction squeezed t with
  | case1 => exact Nat.le_refl 0
  | case2 c t _ ih => exact Nat.succ_le_succ ih
  | case3 c t _ _ ih => exact Nat.le_succ_of_le ih
  | case4 c t _ _ ih => exact Nat.succ_le_succ ih

theorem isPrefixOf_spaces (c : Char) (t : Text) :
    ("  ".toList).isPrefixOf (c :: t) = (c == ' ' && t.head? == some ' ') := by
  have hp : ("  ".toList).isPrefixOf (c :: t) = (' ' == c && [' '].isPrefixOf t) := rfl
  rw [hp, BEq.comm]
  cases t with
  | nil => rfl
  | cons d t => simp [List.isPrefixOf, @BEq.comm _ _ _ ' ' d]

/-- Squeezing changes a text unless its blanks are spaces that stand alone. -/
theorem squeezed_eq_self_iff (t : Text) :
    squeezed t = t ↔ (∀ c ∈ t, isBlank c = true → c = ' ') ∧ holds "  " t = false := by
  induction t with
  | nil => exact iff_of_true rfl ⟨by simp, rfl⟩
  | cons c t ih =>
    rw [List.forall_mem_cons, holds_cons, Bool.or_eq_false_iff, isPrefixOf_spaces]
    cases hc : isBlank c with
    | false =>
      have hne : (c == ' ') = false := beq_eq_false_iff_ne.2 fun he => by
        rw [he] at hc
        exact absurd hc (by decide)
      rw [squeezed_cons hc, List.cons.injEq, ih, hne]
      simp
    | true =>
      cases ht : t.head?.any isBlank with
      | true =>
        have hlong : squeezed (c :: t) ≠ c :: t := fun he => by
          have hlength := congrArg List.length he
          have hle := length_squeezed_le t
          rw [squeezed_blank_cons hc ht, List.length_cons] at hlength
          omega
        obtain ⟨d, hd, hblank⟩ := (Option.any_eq_true _ _).1 ht
        refine iff_of_false hlong fun ⟨⟨hself, hall⟩, hprefix, _⟩ => ?_
        obtain rfl := hall d (List.mem_of_head? hd) hblank
        simp [hself rfl, hd] at hprefix
      | false =>
        have hne : (t.head? == some ' ') = false := beq_eq_false_iff_ne.2 fun he => by
          rw [he] at ht
          exact absurd ht (by decide)
        rw [squeezed_blank hc ht, List.cons.injEq, ih, hne, @eq_comm _ ' ' c]
        simp [and_assoc]

theorem words_cons_blank {c b : Char} (hc : isBlank c = false) (hb : isBlank b = true) (t : Text) :
    words (c :: b :: t) = [c] :: words t := by
  rw [← List.singleton_append, words_append_cons hb,
    words_of_forall (List.cons_ne_nil c []) (by simpa using hc)]
  rfl

/-- A text is collapsed when its runs of blanks are spaces and none is left at its end. -/
theorem collapsed_eq_trimEnd {c : Char} (hc : isBlank c = false) (t : Text) :
    collapsed (c :: t) = c :: trimEnd (squeezed t) := by
  induction t generalizing c with
  | nil => exact collapsed_of_forall (by simpa using hc)
  | cons e t ih =>
    cases he : isBlank e with
    | false => rw [collapsed_cons_cons hc he, ih he, squeezed_cons he, trimEnd_cons he]
    | true =>
      cases t with
      | nil =>
        have hspace : trimEnd [' '] = [] := by decide
        rw [collapsed, words_cons_blank hc he, squeezed_blank he rfl, squeezed, hspace]
        exact List.append_nil [c]
      | cons f t =>
        cases hf : isBlank f with
        | true =>
          have hskip : words (f :: t) = words t := words_append_cons hf [] t
          have hsame : collapsed (c :: e :: f :: t) = collapsed (c :: f :: t) := by
            rw [collapsed, collapsed, words_cons_blank hc he, words_cons_blank hc hf, hskip]
          rw [hsame, ih hc, squeezed_blank_cons he (by simpa using hf)]
        | false =>
          obtain ⟨w, ws, hw⟩ := words_cons hf t
          have hgap : collapsed (c :: e :: f :: t) = c :: ' ' :: collapsed (f :: t) := by
            rw [collapsed, words_cons_blank hc he, hw, join_cons_cons, collapsed, hw]
            rfl
          have hrest : collapsed (f :: t) = f :: trimEnd (squeezed t) := by
            have h := ih hc
            rw [collapsed_cons_cons hc hf, squeezed_cons hf, trimEnd_cons hf] at h
            exact (List.cons.inj h).2
          rw [hgap, hrest, squeezed_blank he (by simpa using hf), squeezed_cons hf]
          exact congrArg _ (trimEnd_append_cons hf [' '] (squeezed t)).symm

/-- Where no blank is at its ends, a text is collapsed when its runs of blanks are spaces. -/
theorem Solid.collapsed_eq_squeezed {t : Text} (h : Solid t) : collapsed t = squeezed t := by
  obtain ⟨u, d, hu⟩ := (List.eq_nil_or_concat' t).resolve_left h.ne_nil
  have hd : isBlank d = false := h.last d (by simp [hu])
  obtain ⟨c, t, rfl, hc⟩ := h.exists_cons
  have hend : squeezed (c :: t) = squeezed u ++ [d] := by
    rw [hu, squeezed_append u (by simpa using hd), squeezed_cons hd]
    rfl
  rw [collapsed_eq_trimEnd hc, ← trimEnd_cons hc, ← squeezed_cons hc, hend, trimEnd_concat hd]

end TableDialects.Text
