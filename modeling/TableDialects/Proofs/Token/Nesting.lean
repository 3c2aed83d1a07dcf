import TableDialects.Proofs.Token.Phrase
import Mathlib.Data.List.Infix

/-!
# Nested tokens

A comma divides tokens if all the parentheses in front of it are closed. Tokens that never close
more than is open are read one by one with the depth, up to the first comma that divides them.
-/
namespace TableDialects.Token

variable {d d' : Nat} {t : Token} {ts us : List Token} {i k : Nat}

/-- No first part of the tokens closes more parentheses than are open, `depth` of them being open
in front of the tokens. -/
def Nested (depth : Nat) (ts : List Token) : Prop :=
  ∀ us ∈ ts.inits, us.count .closeParen ≤ depth + us.count .openParen

instance : Decidable (Nested d ts) :=
  inferInstanceAs (Decidable (∀ us ∈ ts.inits, us.count .closeParen ≤ d + us.count .openParen))

/-- At the index stands a comma outside all parentheses, `depth` of them being open in front of the
tokens. -/
structure Divides (depth : Nat) (ts : List Token) (i : Nat) : Prop where
  comma : ts[i]? = some .comma
  count : depth + (ts.take i).count .openParen = (ts.take i).count .closeParen

private theorem count_cons_eq_add (t u : Token) (ts : List Token) :
    (t :: ts).count u = [t].count u + ts.count u := by
  rw [← List.singleton_append, List.count_append]

/-- A token that does not divide takes the depth to what it opens or closes. -/
theorem depthAfter_singleton : depthAfter d [t] = some d' ↔
    ¬(t = .comma ∧ d = 0) ∧ d + [t].count .openParen = d' + [t].count .closeParen := by
  cases t with
  | closeParen =>
    simp [depthAfter]
    omega
  | _ => simp [depthAfter]

theorem depthAfter_cons : depthAfter d (t :: ts) = some d' ↔
    ∃ e, depthAfter d [t] = some e ∧ depthAfter e ts = some d' := by
  cases t <;> simp [depthAfter]

private theorem Nested.tail (h : Nested d (t :: ts))
    (hd : d + [t].count .openParen = d' + [t].count .closeParen) : Nested d' ts := by
  intro us hus
  have hclosed := h (t :: us) (by
    rw [List.inits_cons]
    exact List.mem_cons_of_mem _ (List.mem_map_of_mem hus))
  rw [count_cons_eq_add t .openParen, count_cons_eq_add t .closeParen] at hclosed
  omega

/-- The first of nested tokens divides, or there is a depth after it. The others are nested from
there on. -/
theorem Nested.step (h : Nested d (t :: ts)) :
    ((t = .comma ∧ d = 0) ∧ Nested 0 ts) ∨ ∃ e, depthAfter d [t] = some e ∧ Nested e ts := by
  by_cases hdivides : t = .comma ∧ d = 0
  · obtain ⟨rfl, rfl⟩ := hdivides
    exact .inl ⟨⟨rfl, rfl⟩, h.tail rfl⟩
  · have hfirst := h [t] (by simp)
    have hd : d + [t].count .openParen =
        d + [t].count .openParen - [t].count .closeParen + [t].count .closeParen := by
      omega
    exact .inr ⟨_, depthAfter_singleton.2 ⟨hdivides, hd⟩, h.tail hd⟩

theorem count_of_depthAfter (h : depthAfter d ts = some d') :
    d + ts.count .openParen = d' + ts.count .closeParen := by
  induction ts generalizing d with
  | nil => simpa [depthAfter] using h
  | cons t ts ih =>
    obtain ⟨e, hfirst, hrest⟩ := depthAfter_cons.1 h
    have hcount := (depthAfter_singleton.1 hfirst).2
    have := ih hrest
    rw [count_cons_eq_add t .openParen, count_cons_eq_add t .closeParen]
    omega

/-- What the tokens in front open or close counts as open or closed for those behind. -/
theorem divides_append_right (h : d + ts.count .openParen = d' + ts.count .closeParen) :
    Divides d (ts ++ us) (ts.length + k) ↔ Divides d' us k := by
  have hget : (ts ++ us)[ts.length + k]? = us[k]? := by
    rw [List.getElem?_append_right (Nat.le_add_right _ _), Nat.add_sub_cancel_left]
  have htake : (ts ++ us).take (ts.length + k) = ts ++ us.take k := List.take_length_add_append k
  constructor
  · rintro ⟨hcomma, hcount⟩
    rw [htake, List.count_append, List.count_append] at hcount
    exact ⟨hget ▸ hcomma, by omega⟩
  · rintro ⟨hcomma, hcount⟩
    refine ⟨hget.trans hcomma, ?_⟩
    rw [htake, List.count_append, List.count_append]
    omega

theorem divides_zero : Divides d (t :: ts) 0 ↔ t = .comma ∧ d = 0 :=
  ⟨fun h => ⟨by simpa using h.comma, by simpa using h.count⟩,
    fun h => ⟨by simpa using h.1, by simpa using h.2⟩⟩

/-- No comma divides tokens that have a depth after them, whatever follows. -/
theorem not_divides_append (h : depthAfter d ts = some d') (hi : i < ts.length)
    (us : List Token) : ¬Divides d (ts ++ us) i := by
  induction ts generalizing d i with
  | nil => exact absurd hi (Nat.not_lt_zero i)
  | cons t ts ih =>
    obtain ⟨e, hfirst, hrest⟩ := depthAfter_cons.1 h
    obtain ⟨hinner, hcount⟩ := depthAfter_singleton.1 hfirst
    cases i with
    | zero => exact fun hdivides => hinner (divides_zero.1 hdivides)
    | succ i =>
      intro hdivides
      have hsplit := @divides_append_right d e [t] (ts ++ us) i hcount
      rw [List.length_singleton, Nat.add_comm] at hsplit
      exact ih hrest (Nat.lt_of_succ_lt_succ hi) (hsplit.1 hdivides)

theorem not_divides (h : depthAfter d ts = some d') (i : Nat) : ¬Divides d ts i := by
  intro hdivides
  obtain ⟨hlt, -⟩ := List.getElem?_eq_some_iff.1 hdivides.comma
  have hnot := not_divides_append h hlt []
  rw [List.append_nil] at hnot
  exact hnot hdivides

end TableDialects.Token
