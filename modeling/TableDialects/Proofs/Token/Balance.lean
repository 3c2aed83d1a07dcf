import TableDialects.Token.Group
import TableDialects.Token.Lexer
import Mathlib.Order.Bounds.Basic

/-!
# Balanced groups

A group ends where as many parentheses have been closed as were opened, counted from the one that
opens it, for the first time. Where that never happens the group goes on to the last token.
-/
namespace TableDialects.Token

variable {ts : List Token} {t : Token} {depth depth' start last : Nat}

/-- The least index with the property, or none if no index has it. -/
def IsFirst (p : Nat → Prop) : Option Nat → Prop
  | some n => IsLeast {k | p k} n
  | none => ∀ k, ¬p k

/-- The property of an index goes over to the one behind it. -/
theorem IsFirst.succ {p q : Nat → Prop} {n : Option Nat} (h : IsFirst p n) (hzero : ¬q 0)
    (hsucc : ∀ k, q (k + 1) ↔ p k) : IsFirst q (n.map (· + 1)) := by
  cases n with
  | none =>
    intro k hk
    cases k with
    | zero => exact hzero hk
    | succ k => exact h k ((hsucc k).1 hk)
  | some n =>
    refine ⟨(hsucc n).2 h.1, fun k hk => ?_⟩
    cases k with
    | zero => exact absurd hk hzero
    | succ k => exact Nat.succ_le_succ (h.2 ((hsucc k).1 hk))

/-- As many parentheses are closed as are opened. -/
def Balanced (ts : List Token) : Prop := ts.count .openParen = ts.count .closeParen

/-- The tokens up to an index close what they open and `depth` parentheses more. -/
structure ClosesAll (depth : Nat) (ts : List Token) (last : Nat) : Prop where
  lt : last < ts.length
  count : depth + (ts.take (last + 1)).count .openParen = (ts.take (last + 1)).count .closeParen

private theorem closesAll_zero : ClosesAll depth (t :: ts) 0 ↔
    depth + [t].count .openParen = [t].count .closeParen :=
  ⟨fun h => h.count, fun h => ⟨Nat.succ_pos _, h⟩⟩

/-- What the first token opens or closes counts as open or closed for the others. -/
theorem closesAll_succ
    (h : depth + [t].count .openParen = depth' + [t].count .closeParen) (k : Nat) :
    ClosesAll depth (t :: ts) (k + 1) ↔ ClosesAll depth' ts k := by
  have hcons : ∀ u, ((t :: ts).take (k + 1 + 1)).count u =
      [t].count u + (ts.take (k + 1)).count u := fun u => by
    rw [List.take_succ_cons, ← List.singleton_append, List.count_append]
  constructor
  · rintro ⟨hlt, hcount⟩
    rw [hcons, hcons] at hcount
    exact ⟨Nat.lt_of_succ_lt_succ hlt, by omega⟩
  · rintro ⟨hlt, hcount⟩
    refine ⟨Nat.succ_lt_succ hlt, ?_⟩
    rw [hcons, hcons]
    omega

/-- The search for the end of a group finds where all that is open is closed. -/
theorem isFirst_closing? (hd : 0 < depth) : IsFirst (ClosesAll depth ts) (closing? depth ts) := by
  induction depth, ts using closing?.induct with
  | case1 => exact fun k hk => absurd hk.lt (Nat.not_lt_zero k)
  | case2 depth ts ih =>
    rw [closing?]
    refine (ih (Nat.succ_pos depth)).succ ?_ (closesAll_succ (by simp))
    simp [closesAll_zero]
  | case3 depth ts hone =>
    rw [closing?, if_pos hone]
    exact ⟨closesAll_zero.2 (by simp; omega), fun k _ => Nat.zero_le k⟩
  | case4 depth ts hone ih =>
    rw [closing?, if_neg hone]
    refine (ih (by omega)).succ ?_ (closesAll_succ (by simp; omega))
    rw [closesAll_zero]
    simp
    omega
  | case5 depth t ts hopen hclose ih =>
    have hopens : [t].count .openParen = 0 := List.count_eq_zero.2 (by simpa using Ne.symm hopen)
    have hcloses : [t].count .closeParen = 0 := List.count_eq_zero.2 (by simpa using Ne.symm hclose)
    have hstep : closing? depth (t :: ts) = (closing? depth ts).map (· + 1) := by
      rw [closing?]
      · exact hopen
      · exact hclose
    rw [hstep]
    refine (ih hd).succ ?_ (closesAll_succ (by omega))
    rw [closesAll_zero]
    omega

/-- The tokens from `start` to `last` are balanced, and there are at least two of them. -/
structure Closes (ts : List Token) (start last : Nat) : Prop where
  gt : start < last
  lt : last < ts.length
  balanced : Balanced ((ts.take (last + 1)).drop start)

private theorem closes_iff (h : ts[start]? = some .openParen) :
    Closes ts start last ↔ ∃ k, last = start + (k + 1) ∧ ClosesAll 1 (ts.drop (start + 1)) k := by
  obtain ⟨hlt, hopen⟩ := List.getElem?_eq_some_iff.1 h
  have hdrop : ts.drop start = .openParen :: ts.drop (start + 1) := by
    rw [← hopen, List.getElem_cons_drop]
  have hpiece : ∀ k, (ts.take (start + (k + 1) + 1)).drop start =
      .openParen :: (ts.drop (start + 1)).take (k + 1) := fun k => by
    rw [List.drop_take, hdrop, show start + (k + 1) + 1 - start = k + 1 + 1 by omega,
      List.take_succ_cons]
  have hcount : ∀ us : List Token, Balanced (.openParen :: us) ↔
      1 + us.count .openParen = us.count .closeParen := fun us => by
    rw [Balanced, List.count_cons_self, List.count_cons_of_ne (by simp), Nat.add_comm]
  constructor
  · rintro ⟨hgt, hlast, hbalanced⟩
    obtain ⟨k, rfl⟩ := Nat.exists_eq_add_of_lt hgt
    rw [show start + k + 1 = start + (k + 1) from Nat.add_assoc start k 1, hpiece, hcount]
      at hbalanced
    exact ⟨k, rfl, by rw [List.length_drop]; omega, hbalanced⟩
  · rintro ⟨k, rfl, hlast, hall⟩
    rw [List.length_drop] at hlast
    exact ⟨by omega, by omega, by rwa [hpiece, hcount]⟩

private theorem groupEnd_eq_elim (h : ts[start]? = some .openParen) : groupEnd ts start =
    (closing? 1 (ts.drop (start + 1))).elim (ts.length - 1) fun n => start + (n + 1) := by
  obtain ⟨hlt, hopen⟩ := List.getElem?_eq_some_iff.1 h
  rw [groupEnd, ← List.getElem_cons_drop hlt, hopen, closing?]
  cases closing? 1 (ts.drop (start + 1)) <;> rfl

/-- A group ends at the least index that balances it, or at the last one if none does. It ends
within the tokens and not before it begins, so fewer tokens are left behind it. -/
theorem groupEnd_isLeast (h : ts[start]? = some .openParen) :
    ((∃ last, Closes ts start last) → IsLeast {last | Closes ts start last} (groupEnd ts start)) ∧
    ((¬∃ last, Closes ts start last) → groupEnd ts start = ts.length - 1) ∧
    start ≤ groupEnd ts start ∧ groupEnd ts start < ts.length ∧
    ts.length - (groupEnd ts start + 1) < ts.length - start := by
  have hlt := (List.getElem?_eq_some_iff.1 h).1
  have hfirst := @isFirst_closing? (ts.drop (start + 1)) 1 Nat.one_pos
  rw [groupEnd_eq_elim h]
  cases hclosing : closing? 1 (ts.drop (start + 1)) with
  | some n =>
    rw [hclosing] at hfirst
    have hleast : IsLeast {last | Closes ts start last} (start + (n + 1)) := by
      refine ⟨(closes_iff h).2 ⟨n, rfl, hfirst.1⟩, fun last hlast => ?_⟩
      obtain ⟨k, rfl, hk⟩ := (closes_iff h).1 hlast
      have := hfirst.2 hk
      omega
    have hlast := hleast.1.lt
    rw [Option.elim_some]
    exact ⟨fun _ => hleast, fun hnone => absurd ⟨_, hleast.1⟩ hnone, by omega, hlast, by omega⟩
  | none =>
    rw [hclosing] at hfirst
    have hnone : ¬∃ last, Closes ts start last := by
      rintro ⟨last, hlast⟩
      obtain ⟨k, -, hk⟩ := (closes_iff h).1 hlast
      exact hfirst k hk
    rw [Option.elim_none]
    exact ⟨fun hsome => absurd hsome hnone, fun _ => rfl, by omega, by omega, by omega⟩

/-- A group within a group is passed over, and one that is never closed takes all that is left. -/
theorem groupEnd_isLeast_nested :
    let ts : List Token := (tokenize "f((a), b) (c").map (·.token)
    ts[1]? = some .openParen ∧ IsLeast {last | Closes ts 1 last} 7 ∧ groupEnd ts 1 = 7 ∧
      ts[8]? = some .openParen ∧ (¬∃ last, Closes ts 8 last) ∧ groupEnd ts 8 = 9 ∧
      ts.length = 10 := by
  intro ts
  have hts : ts = [.word "f", .openParen, .openParen, .word "a", .closeParen, .comma, .word "b",
      .closeParen, .openParen, .word "c"] := by
    decide +kernel
  have hclosed : groupEnd ts 1 = 7 := by
    rw [hts]
    rfl
  have hleast := (@groupEnd_isLeast ts 1 (by rw [hts]; rfl)).1
    ⟨7, by rw [hts]; exact ⟨by decide, by decide, by unfold Balanced; decide⟩⟩
  have hnone : ¬∃ last, Closes ts 8 last := by
    rw [hts]
    rintro ⟨last, hgt, hlt, hbalanced⟩
    obtain rfl : last = 9 := by
      simp only [List.length_cons, List.length_nil] at hlt
      omega
    exact absurd hbalanced (by unfold Balanced; decide)
  have hopened := (@groupEnd_isLeast ts 8 (by rw [hts]; rfl)).2.1 hnone
  rw [hclosed] at hleast
  rw [hts] at hopened hleast hnone hclosed ⊢
  exact ⟨rfl, hleast, hclosed, rfl, hnone, hopened, rfl⟩

end TableDialects.Token
