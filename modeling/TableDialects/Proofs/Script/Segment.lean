import TableDialects.Proofs.Text.Doubled
import TableDialects.Proofs.Text.Infix
import TableDialects.Proofs.Token.Reading
import TableDialects.Script.Segment

/-!
# Segments

The segments of a script make it up again. Code goes on over names in quotes and over comments, and
a literal ends where the lexer ends it.
-/
namespace TableDialects.Segment

theorem literalLength_cons {c : Char} (hs : c ≠ '\\') (hq : c ≠ '\'') (t : Text) :
    literalLength (c :: t) = 1 + literalLength t := by
  rw [literalLength]
  · exact fun _ _ h _ => hs h
  · exact fun _ h _ => hq h
  · exact hq

theorem lengthPast_cons (mark : Text) (c : Char) (t : Text) :
    lengthPast mark (c :: t) =
      if mark.isPrefixOf (c :: t) then mark.length else lengthPast mark t + 1 := by
  rw [lengthPast, Text.cutAt?]
  by_cases hp : mark.isPrefixOf (c :: t) = true
  · rw [if_pos hp, if_pos hp]
    exact Nat.zero_add mark.length
  · rw [if_neg hp, if_neg hp, lengthPast]
    cases Text.cutAt? mark t with
    | none => rfl
    | some p => exact Nat.add_right_comm p.1.length 1 mark.length

theorem lengthPast_cons_of_not_mem {mark : Text} {c : Char} (hne : mark ≠ []) (hc : c ∉ mark)
    (t : Text) : lengthPast mark (c :: t) = lengthPast mark t + 1 := by
  obtain ⟨d, mark, rfl⟩ := List.exists_cons_of_ne_nil hne
  simp only [List.mem_cons, not_or] at hc
  rw [lengthPast_cons, List.isPrefixOf, beq_eq_false_iff_ne.2 (Ne.symm hc.1), Bool.false_and]
  rfl

theorem unitLength_pos (t : Text) : 1 ≤ unitLength t := by
  unfold unitLength
  split <;> omega

theorem codeLength_cons {c : Char} (hc : c ≠ '\'') (t : Text) :
    codeLength (c :: t) =
      unitLength (c :: t) + codeLength ((c :: t).drop (unitLength (c :: t))) := by
  obtain ⟨n, hn⟩ := Nat.exists_eq_add_of_le' (unitLength_pos (c :: t))
  rw [codeLength, if_neg hc, hn]
  rfl

theorem split_of_drop_nil {t : Text} (h : t.drop (codeLength t) = []) :
    split t = [⟨false, t.take (codeLength t)⟩] := by
  rw [split]
  split
  · rfl
  · next he => rw [h] at he; cases he

theorem split_of_drop_cons {c : Char} {t cs : Text} (h : t.drop (codeLength t) = c :: cs) :
    split t = ⟨false, t.take (codeLength t)⟩ :: ⟨true, c :: cs.take (literalLength cs)⟩ ::
      split (cs.drop (literalLength cs)) := by
  rw [split]
  split
  · next he => rw [h] at he; cases he
  · next he =>
    rw [h] at he
    obtain ⟨rfl, rfl⟩ := List.cons.inj he
    rfl

/-- Code ends where a literal begins. -/
theorem eq_quote_of_drop {c : Char} {t cs : Text} (h : t.drop (codeLength t) = c :: cs) :
    c = '\'' := by
  induction hn : t.length using Nat.strongRecOn generalizing t with
  | ind n ih =>
    cases t with
    | nil =>
      rw [List.drop_nil] at h
      cases h
    | cons d t =>
      by_cases hq : d = '\''
      · rw [codeLength, if_pos hq, List.drop_zero] at h
        exact (List.cons.inj h).1.symm.trans hq
      · rw [codeLength_cons hq, ← List.drop_drop] at h
        refine ih _ ?_ h rfl
        have := unitLength_pos (d :: t)
        rw [List.length_drop, ← hn, List.length_cons]
        omega

/-- The segments of a text make it up. -/
theorem source_split (t : Text) : (split t).flatMap (·.text) = t := by
  induction hn : t.length using Nat.strongRecOn generalizing t with
  | ind n ih =>
    cases hrest : t.drop (codeLength t) with
    | nil =>
      have htake := List.take_append_drop (codeLength t) t
      rw [hrest, List.append_nil] at htake
      rw [split_of_drop_nil hrest, List.flatMap_cons, List.flatMap_nil, List.append_nil, htake]
    | cons c cs =>
      have hlen : (cs.drop (literalLength cs)).length < n := by
        have := congrArg List.length hrest
        rw [List.length_drop, List.length_cons] at this
        rw [List.length_drop]
        omega
      rw [split_of_drop_cons hrest, List.flatMap_cons, List.flatMap_cons, ih _ hlen _ rfl,
        List.cons_append, List.take_append_drop, ← hrest, List.take_append_drop]

section
variable {u v r body : Text} {q : Char}

private theorem lengthPast_append (hu : q ∉ u) (r : Text) :
    lengthPast [q] (u ++ q :: r) = u.length + 1 := by
  induction u with
  | nil => simp [lengthPast_cons]
  | cons c u ih =>
    simp only [List.mem_cons, not_or] at hu
    rw [List.cons_append, lengthPast_cons_of_not_mem (by simp) (by simpa using Ne.symm hu.1),
      ih hu.2]
    rfl

private theorem lengthPast_of_not_mem (hu : q ∉ u) : lengthPast [q] u = u.length := by
  induction u with
  | nil => rfl
  | cons c u ih =>
    simp only [List.mem_cons, not_or] at hu
    rw [lengthPast_cons_of_not_mem (by simp) (by simpa using Ne.symm hu.1), ih hu.2]
    rfl

/-- Code goes on over `u` when `r` follows it. -/
def Inert (u r : Text) : Prop := codeLength (u ++ r) = u.length + codeLength r

theorem inert_nil : Inert [] r := (Nat.zero_add _).symm

theorem Inert.append (hu : Inert u (v ++ r)) (hv : Inert v r) : Inert (u ++ v) r := by
  rw [Inert, List.append_assoc, hu, hv, List.length_append, Nat.add_assoc]

theorem inert_of_unitLength {c : Char} (hc : c ≠ '\'')
    (h : unitLength (c :: u ++ r) = (c :: u).length) : Inert (c :: u) r := by
  have hcode := codeLength_cons hc (u ++ r)
  rw [List.cons_append] at h
  rw [h, ← List.cons_append, List.drop_left] at hcode
  exact hcode

theorem inert_char {c : Char} (hc : Token.isQuote c = false) (hd : c = '-' → r.head? ≠ some '-')
    (hb : c = '/' → r.head? ≠ some '*') : Inert [c] r := by
  refine inert_of_unitLength (fun he => absurd (he ▸ hc) (by decide)) ?_
  rw [List.singleton_append, unitLength]
  · rfl
  · exact fun _ he => absurd ((List.cons.inj he).1 ▸ hc) (by decide)
  · exact fun _ he => absurd ((List.cons.inj he).1 ▸ hc) (by decide)
  · exact fun t he => hd (List.cons.inj he).1 (by rw [(List.cons.inj he).2]; rfl)
  · exact fun t he => hb (List.cons.inj he).1 (by rw [(List.cons.inj he).2]; rfl)

/-- Code goes on over characters that open neither a quoted name nor a comment. -/
theorem inert_of_forall (h : ∀ c ∈ u, Token.isQuote c = false ∧ c ≠ '-' ∧ c ≠ '/') : Inert u r := by
  induction u with
  | nil => exact inert_nil
  | cons c u ih =>
    obtain ⟨⟨hc, hd, hb⟩, hu⟩ := List.forall_mem_cons.1 h
    exact (inert_char hc (fun he => absurd he hd) fun he => absurd he hb).append (ih hu)

private theorem inert_quoted (hq : q = '\x60' ∨ q = '\"') (hu : q ∉ u) :
    Inert (q :: (u ++ [q])) r := by
  have hpast := lengthPast_append hu r
  have hassoc : q :: (u ++ [q]) ++ r = q :: (u ++ q :: r) := by simp
  rcases hq with rfl | rfl
  all_goals
    refine inert_of_unitLength (by decide) ?_
    rw [hassoc, unitLength, hpast]
    simp only [List.length_cons, List.length_append, List.length_nil]
    omega

/-- A doubled quote ends a unit of code and begins the next. -/
theorem inert_enclosed (hq : q = '\x60' ∨ q = '\"') (v : Text) : Inert (Text.enclosed q v) r := by
  suffices h : ∀ u, q ∉ u → Inert (q :: (u ++ (Text.doubled q v ++ [q]))) r from
    h [] List.not_mem_nil
  induction v with
  | nil => exact fun u hu => inert_quoted hq hu
  | cons c v ih =>
    intro u hu
    rw [Text.doubled_cons]
    by_cases hc : c = q
    · subst hc
      have hunits : c :: (u ++ ((if c = c then [c, c] else [c]) ++ Text.doubled c v ++ [c])) =
          c :: (u ++ [c]) ++ c :: ([] ++ (Text.doubled c v ++ [c])) := by
        simp
      rw [hunits]
      exact (inert_quoted hq hu).append (ih [] List.not_mem_nil)
    · have hmove : u ++ ((if c = q then [q, q] else [c]) ++ Text.doubled q v ++ [q]) =
          u ++ [c] ++ (Text.doubled q v ++ [q]) := by
        simp [hc]
      rw [hmove]
      exact ih (u ++ [c]) (by simpa using ⟨hu, Ne.symm hc⟩)

theorem inert_comment (h : '\n' ∉ body) : Inert ('-' :: '-' :: (body ++ ['\n'])) r := by
  have hassoc : '-' :: '-' :: (body ++ ['\n']) ++ r = '-' :: '-' :: (body ++ '\n' :: r) := by simp
  refine inert_of_unitLength (by decide) ?_
  rw [hassoc, unitLength, lengthPast_append h]
  simp only [List.length_cons, List.length_append, List.length_nil]
  omega

theorem inert_last_comment (h : '\n' ∉ body) : Inert ('-' :: '-' :: body) [] := by
  refine inert_of_unitLength (by decide) ?_
  rw [List.append_nil, unitLength, lengthPast_of_not_mem h]
  simp only [List.length_cons]
  omega

private theorem lengthPast_block (h : ¬['*', '/'] <:+: body) (r : Text) :
    lengthPast ['*', '/'] (body ++ '*' :: '/' :: r) = body.length + 2 := by
  induction body with
  | nil => simp [lengthPast_cons]
  | cons c body ih =>
    rw [Text.pair_infix_cons, not_or] at h
    have hstart : ['*', '/'].isPrefixOf (c :: (body ++ '*' :: '/' :: r)) = false := by
      by_contra hp
      rw [Bool.not_eq_false, List.isPrefixOf_iff_prefix] at hp
      obtain ⟨rfl, hslash⟩ := List.cons_prefix_cons.1 hp
      cases body with
      | nil => simp at hslash
      | cons d body => exact h.1 ⟨rfl, congrArg some (List.cons_prefix_cons.1 hslash).1.symm⟩
    rw [List.cons_append, lengthPast_cons, hstart, if_neg Bool.false_ne_true, ih h.2]
    rfl

theorem inert_block (h : ¬['*', '/'] <:+: body) :
    Inert ('/' :: '*' :: (body ++ ['*', '/'])) r := by
  have hassoc : '/' :: '*' :: (body ++ ['*', '/']) ++ r =
      '/' :: '*' :: (body ++ '*' :: '/' :: r) := by
    simp
  refine inert_of_unitLength (by decide) ?_
  rw [hassoc, unitLength, lengthPast_block h]
  simp only [List.length_cons, List.length_append, List.length_nil]
  omega

theorem literalLength_quotes {s : Text} (h : Token.Quotes '\'' v s) (hr : r.head? ≠ some '\'') :
    literalLength (s ++ r) = s.length := by
  induction h with
  | close =>
    rw [List.singleton_append, literalLength]
    · rfl
    · rintro t rfl
      exact hr rfl
  | escape c d hc _ ih =>
    obtain rfl : c = '\\' := by
      simp only [Token.escapes, Bool.and_eq_true, beq_iff_eq] at hc
      exact hc.1
    rw [List.cons_append, List.cons_append, literalLength, ih]
    simp only [List.length_cons]
    omega
  | twice _ ih =>
    rw [List.cons_append, List.cons_append, literalLength, ih]
    simp only [List.length_cons]
    omega
  | plain c he hc _ ih =>
    have hslash : c ≠ '\\' := by
      rintro rfl
      exact absurd he (by decide)
    rw [List.cons_append, literalLength_cons hslash hc, ih, List.length_cons, Nat.add_comm]

end

end TableDialects.Segment
