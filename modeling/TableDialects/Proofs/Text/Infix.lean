import TableDialects.Proofs.Text.Blank

/-!
# Parts of a text

The pieces of a text and what trimming leaves of it are parts of it. A pair of characters that
occurs in two texts put together occurs in one of them or where they meet.
-/
namespace TableDialects.Text

section
variable {a b : Char}

theorem pair_infix_cons {c : Char} {t : Text} :
    [a, b] <:+: c :: t ↔ c = a ∧ t.head? = some b ∨ [a, b] <:+: t := by
  rw [List.infix_cons_iff, List.cons_prefix_cons]
  refine or_congr_left (and_congr eq_comm ?_)
  cases t with
  | nil => simp
  | cons d t => simp [eq_comm]

/-- A pair is not made by adding a text that does not begin with its second character. -/
theorem not_pair_infix_append {t u : Text} (ht : ¬[a, b] <:+: t) (hu : ¬[a, b] <:+: u)
    (hb : u.head? ≠ some b) : ¬[a, b] <:+: t ++ u := by
  induction t with
  | nil => exact hu
  | cons c t ih =>
    rw [pair_infix_cons, not_or] at ht
    rw [List.cons_append, pair_infix_cons, not_or]
    refine ⟨fun h => ?_, ih ht.2⟩
    cases t with
    | nil => exact hb h.2
    | cons d t => exact ht.1 h

/-- A pair that begins with a character of its second half lies in that half. -/
theorem pair_infix_of_append {u t : Text} (hu : a ∉ u)
    (h : [a, b] <:+: u ++ t) : [a, b] <:+: t := by
  induction u with
  | nil => exact h
  | cons c u ih =>
    rw [List.mem_cons, not_or] at hu
    rw [List.cons_append, pair_infix_cons] at h
    rcases h with h | h
    · exact absurd h.1.symm hu.1
    · exact ih hu.2 h

end

theorem infix_of_mem_pieces {cut : Char → Bool} {k t : Text} (h : k ∈ pieces cut t) :
    k <:+: t := by
  -- the first piece is even a prefix
  have hall : ∀ t : Text, (∀ p ∈ (pieces cut t).head?, p <+: t) ∧
      ∀ k ∈ pieces cut t, k <:+: t := by
    intro t
    induction t with
    | nil => simp [pieces]
    | cons c t ih =>
      obtain ⟨p, ps, hps⟩ := List.exists_cons_of_ne_nil (@pieces_ne_nil cut t)
      rw [hps] at ih
      have hp : p <+: t := ih.1 p rfl
      have hrest : ∀ k ∈ p :: ps, k <:+: c :: t := fun k hk =>
        (ih.2 k hk).trans (List.suffix_cons c t).isInfix
      by_cases hc : cut c = true
      · simp only [pieces, hc, if_true, hps]
        refine ⟨by simp, fun k hk => ?_⟩
        rcases List.mem_cons.1 hk with rfl | hk
        · exact List.nil_infix
        · exact hrest k hk
      · simp only [pieces, hc, Bool.false_eq_true, if_false, hps, consHead]
        have hcp : c :: p <+: c :: t := List.cons_prefix_cons.2 ⟨rfl, hp⟩
        refine ⟨by simpa using hcp, fun k hk => ?_⟩
        rcases List.mem_cons.1 hk with rfl | hk
        · exact hcp.isInfix
        · exact hrest k (List.mem_cons_of_mem p hk)
  exact (hall t).2 k h

theorem infix_trim (t : Text) : trim t <:+: t := by
  have hend : trimEnd (trimStart t) <+: trimStart t := by
    rw [← List.reverse_suffix, trimEnd, List.reverse_reverse]
    exact List.dropWhile_suffix _
  exact hend.isInfix.trans (List.dropWhile_suffix _).isInfix

theorem all_blank_pieces {cut : Char → Bool} (hcut : ∀ c, cut c = true → isBlank c = true)
    (t : Text) : (pieces cut t).all blank = blank t := by
  induction t with
  | nil => rfl
  | cons c t ih =>
    obtain ⟨p, ps, hps⟩ := List.exists_cons_of_ne_nil (@pieces_ne_nil cut t)
    have hall : (blank p && ps.all blank) = blank t := by rw [← ih, hps, List.all_cons]
    by_cases hc : cut c = true
    · simpa [pieces, hc, hps, blank, hcut c hc] using hall
    · have hcons : ∀ u, blank (c :: u) = (isBlank c && blank u) := fun u => rfl
      simp [pieces, hc, hps, consHead, hcons, ← hall, Bool.and_assoc]

end TableDialects.Text
