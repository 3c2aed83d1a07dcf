import Mathlib.Data.List.Basic
import TableDialects.Proofs.ColumnType.Phrase

/-!
# Texts that may lose something

One text is the other, or it lost a part of it, as a condition holds or not. The texts that are
built from the two are related in the same way.
-/
namespace TableDialects.Text

/-- The texts are the same if the condition holds, and the first one is shorter if it does not. -/
structure Narrows (P : Prop) (u v : Text) : Prop where
  same : P → u = v
  shorter : ¬ P → u.length < v.length

namespace Narrows

variable {P Q : Prop} {u v : Text}

theorem of_eq (hP : P) (h : u = v) : Narrows P u v := ⟨fun _ => h, fun hn => absurd hP hn⟩

theorem congr (h : Narrows P u v) (hPQ : P ↔ Q) : Narrows Q u v :=
  ⟨fun hQ => h.same (hPQ.2 hQ), fun hQ => h.shorter fun hP => hQ (hPQ.1 hP)⟩

theorem eq_iff (h : Narrows P u v) : u = v ↔ P := by
  refine ⟨fun he => by_contra fun hP => ?_, h.same⟩
  exact absurd (congrArg List.length he) (Nat.ne_of_lt (h.shorter hP))

theorem append {u' v' : Text} (h : Narrows P u v) (h' : Narrows Q u' v') :
    Narrows (P ∧ Q) (u ++ u') (v ++ v') := by
  refine ⟨fun hPQ => by rw [h.same hPQ.1, h'.same hPQ.2], fun hPQ => ?_⟩
  rw [List.length_append, List.length_append]
  by_cases hP : P
  · have hQ := h'.shorter fun hQ => hPQ ⟨hP, hQ⟩
    rw [h.same hP]
    omega
  · have hu := h.shorter hP
    by_cases hQ : Q
    · rw [h'.same hQ]
      omega
    · have hu' := h'.shorter hQ
      omega

theorem append_left (h : Narrows P u v) (s : Text) : Narrows P (s ++ u) (s ++ v) :=
  (Narrows.append (of_eq trivial rfl) h).congr (and_iff_right trivial)

theorem append_right (h : Narrows P u v) (s : Text) : Narrows P (u ++ s) (v ++ s) :=
  (h.append (of_eq trivial rfl)).congr (and_iff_left trivial)

/-- Of joined texts each one may lose something. -/
theorem join {α : Type} {P : α → Prop} {f g : α → Text} {as : List α} (s : Text)
    (rest : List Text) (h : ∀ a ∈ as, Narrows (P a) (f a) (g a)) :
    Narrows (∀ a ∈ as, P a) (Text.join s (as.map f ++ rest)) (Text.join s (as.map g ++ rest)) := by
  induction as with
  | nil => exact of_eq (by simp) rfl
  | cons a as ih =>
    have ha := h a List.mem_cons_self
    have has := ih fun b hb => h b (List.mem_cons_of_mem a hb)
    refine Narrows.congr ?_ (List.forall_mem_cons (p := P)).symm
    cases as with
    | nil =>
      refine Narrows.congr ?_ (and_iff_left (by simp)).symm
      cases rest with
      | nil => simpa [Text.join] using ha
      | cons t ts =>
        simp only [List.map_cons, List.map_nil, List.cons_append, List.nil_append, join_cons_cons]
        exact (ha.append_right s).append_right _
    | cons b bs =>
      simp only [List.map_cons, List.cons_append, join_cons_cons] at has ⊢
      exact (ha.append_right s).append has

end Narrows

end TableDialects.Text
