import TableDialects.Text.Case

/-!
# Doubled quotes

Doubling the quotes of a text changes nothing about what it holds apart from quotes.
-/
namespace TableDialects.Text

variable {q : Char} {needle t u v : Text}

theorem doubled_cons (q c : Char) (t : Text) :
    doubled q (c :: t) = (if c = q then [q, q] else [c]) ++ doubled q t := by
  simp [doubled]

theorem doubled_append (q : Char) (u v : Text) :
    doubled q (u ++ v) = doubled q u ++ doubled q v :=
  List.flatMap_append

theorem doubled_of_not_mem (h : q ∉ u) : doubled q u = u := by
  induction u with
  | nil => rfl
  | cons c u ih =>
    have hc : c ≠ q := by
      rintro rfl
      exact h List.mem_cons_self
    rw [doubled_cons, if_neg hc, ih fun hm => h (List.mem_cons_of_mem c hm)]
    rfl

theorem not_mem_enclosed {c : Char} (hc : c ≠ q) (h : c ∉ t) : c ∉ enclosed q t := by
  have hd : c ∉ doubled q t := by
    intro hm
    obtain ⟨d, hd, hm⟩ := List.mem_flatMap.1 hm
    split at hm
    · simp [hc] at hm
    · exact h (List.mem_singleton.1 hm ▸ hd)
  simp [enclosed, hc, hd]

theorem doubled_injective (q : Char) : Function.Injective (doubled q) := by
  have hne : ∀ c t, doubled q (c :: t) ≠ [] := fun c t => by
    rw [doubled_cons]
    split <;> simp
  intro u
  induction u with
  | nil =>
    rintro (_ | ⟨d, v⟩) h
    · rfl
    · exact absurd h.symm (hne d v)
  | cons c u ih =>
    rintro (_ | ⟨d, v⟩) h
    · exact absurd h (hne c u)
    · rw [doubled_cons, doubled_cons] at h
      by_cases hc : c = q
      · by_cases hd : d = q
        · rw [if_pos hc, if_pos hd, List.append_cancel_left_eq] at h
          rw [hc, hd, ih h]
        · rw [if_pos hc, if_neg hd] at h
          exact absurd (List.cons.inj h).1.symm hd
      · by_cases hd : d = q
        · rw [if_neg hc, if_pos hd] at h
          exact absurd (List.cons.inj h).1 hc
        · rw [if_neg hc, if_neg hd] at h
          obtain ⟨hcd, hrest⟩ := List.cons.inj h
          rw [hcd, ih hrest]

theorem head?_of_doubled {c : Char} {r : Text} (hc : c ≠ q)
    (h : doubled q t ++ q :: r = c :: u) : t.head? = some c := by
  cases t with
  | nil =>
    obtain ⟨rfl, -⟩ := List.cons.inj h
    exact absurd rfl hc
  | cons d t =>
    rw [doubled_cons] at h
    split at h
    · obtain ⟨rfl, -⟩ := List.cons.inj h
      exact absurd rfl hc
    · obtain ⟨rfl, -⟩ := List.cons.inj h
      rfl

/-- A text without quotes is found at the same places when quotes are doubled. -/
theorem isPrefixOf_doubled (hq : q ∉ needle) (r : Text) :
    needle.isPrefixOf (doubled q t ++ q :: r) = needle.isPrefixOf t := by
  induction needle generalizing t with
  | nil => simp
  | cons n needle ih =>
    have hn : (n == q) = false := beq_eq_false_iff_ne.2 fun h => hq (h ▸ List.mem_cons_self)
    have hrec := fun t => @ih t fun hm => hq (List.mem_cons_of_mem n hm)
    cases t with
    | nil => simp [doubled, List.isPrefixOf_cons_cons, hn]
    | cons c t =>
      by_cases hc : c = q
      · subst hc
        simp [doubled_cons, List.isPrefixOf_cons_cons, hn]
      · simp [doubled_cons, List.isPrefixOf_cons_cons, hc, hrec]

theorem holds_cons (needle : Text) (c : Char) (t : Text) :
    holds needle (c :: t) = (needle.isPrefixOf (c :: t) || holds needle t) := by
  unfold holds
  rw [cutAt?]
  split
  · next h => simp [h]
  · next h => simp [h]

theorem holds_iff_isInfix : holds needle t = true ↔ needle <:+: t := by
  induction t with
  | nil => simp [holds, cutAt?]
  | cons c t ih =>
    rw [holds_cons, Bool.or_eq_true, ih, List.infix_cons_iff, List.isPrefixOf_iff_prefix]

theorem isPrefixOf_quote (hne : needle ≠ []) (hq : q ∉ needle) (u : Text) :
    needle.isPrefixOf (q :: u) = false := by
  obtain ⟨n, needle, rfl⟩ := List.exists_cons_of_ne_nil hne
  have hn : n ≠ q := by
    rintro rfl
    exact hq List.mem_cons_self
  simp [List.isPrefixOf_cons_cons, hn]

theorem holds_doubled (hne : needle ≠ []) (hq : q ∉ needle) :
    holds needle (doubled q t ++ [q]) = holds needle t := by
  have hhead := isPrefixOf_quote hne hq
  induction t with
  | nil =>
    rw [show doubled q [] ++ [q] = [q] from rfl, holds_cons, hhead]
    rfl
  | cons c t ih =>
    by_cases hc : c = q
    · subst hc
      simp only [doubled_cons, if_true, List.cons_append, List.nil_append, holds_cons, hhead,
        Bool.false_or, ih]
    · have hp := isPrefixOf_doubled (t := c :: t) hq []
      simp only [doubled_cons, hc, if_false, List.cons_append, List.nil_append] at hp ⊢
      rw [holds_cons, holds_cons, hp, ih]

theorem toLower_ne_quote {c : Char} (h : c ≠ '\'') : c.toLower ≠ '\'' := by
  intro hl
  unfold Char.toLower at hl
  split at hl
  · next hu =>
    have h₁ : 65 ≤ c.val.toNat := by simpa [UInt32.le_iff_toNat_le] using hu.1
    have h₂ : c.val.toNat ≤ 90 := by simpa [UInt32.le_iff_toNat_le] using hu.2
    have hv := congrArg (fun d : Char => d.val.toNat) hl
    simp only [UInt32.toNat_add, show ('a'.val - 'A'.val).toNat = 32 from rfl,
      show ('\''.val).toNat = 39 from rfl] at hv
    omega
  · exact h hl

theorem not_mem_lowerChar {c : Char} (h : c ≠ '\'') : '\'' ∉ lowerChar c := by
  unfold lowerChar
  split
  · simp
  split
  · simp
  · simpa using (toLower_ne_quote h).symm

theorem lower_cons (c : Char) (t : Text) : lower (c :: t) = lowerChar c ++ lower t := by
  simp [lower]

theorem lower_append (u v : Text) : lower (u ++ v) = lower u ++ lower v := List.flatMap_append

theorem lower_doubled (v : Text) : lower (doubled '\'' v) = doubled '\'' (lower v) := by
  induction v with
  | nil => rfl
  | cons c v ih =>
    rw [doubled_cons, lower_append, ih, lower_cons, doubled_append]
    split
    · next hc =>
      subst hc
      rfl
    · next hc =>
      rw [doubled_of_not_mem (not_mem_lowerChar hc)]
      simp [lower]

end TableDialects.Text
