import TableDialects.Script.Preparation
import Mathlib.Data.List.Basic
import Mathlib.Data.Option.Basic

/-!
# Matches

What it means that preparation finds a phrase at some place of a text, and what becomes of the text
there.
-/
namespace TableDialects

namespace Text

theorem afterFolded?_eq_some {w t r : Text} :
    afterFolded? w t = some r ↔ ∃ u, t = u ++ r ∧ fold u = fold w := by
  constructor
  · intro h
    unfold afterFolded? at h
    split at h
    · next hf =>
      cases h
      exact ⟨t.take w.length, (List.take_append_drop _ t).symm, hf⟩
    · cases h
  · rintro ⟨u, rfl, h⟩
    have hlen : u.length = w.length := by
      have := congrArg List.length h
      simpa [fold] using this
    rw [afterFolded?, List.take_left' hlen, List.drop_left' hlen, if_pos h]

end Text

namespace Script

section
variable {f : Option Char → Text → Option Nat} {replacement u r t : Text} {b : Option Char}

theorem replace_of_eq_some {n : Nat} (h : f b t = some (n + 1)) (ht : t ≠ []) :
    replace f replacement b t = replacement ++
      replace f replacement (t.take (n + 1)).getLast? (t.drop (n + 1)) := by
  obtain ⟨c, t, rfl⟩ := List.exists_cons_of_ne_nil ht
  rw [replace, h]
  rfl

theorem replace_of_some (h : f b (u ++ r) = some u.length) (hu : u ≠ []) :
    replace f replacement b (u ++ r) = replacement ++ replace f replacement u.getLast? r := by
  obtain ⟨c, u, rfl⟩ := List.exists_cons_of_ne_nil hu
  rw [List.cons_append] at h ⊢
  rw [replace, h]
  simp only [List.length_cons, List.take_left, List.drop_left]

theorem replace_of_none {c : Char} (h : ∀ n, f b (c :: t) ≠ some (n + 1)) :
    replace f replacement b (c :: t) = c :: replace f replacement (some c) t := by
  rw [replace]
  split
  · next n hn => exact absurd hn (h n)
  · rfl

/-- No match begins within the text. -/
def Misses (f : Option Char → Text → Option Nat) (b : Option Char) (u r : Text) : Prop :=
  ∀ v w, u = v ++ w → w ≠ [] → ∀ n, f (v.getLast?.or b) (w ++ r) ≠ some (n + 1)

theorem replace_append (h : Misses f b u r) :
    replace f replacement b (u ++ r) = u ++ replace f replacement (u.getLast?.or b) r := by
  induction u generalizing b with
  | nil => rfl
  | cons c u ih =>
    have hlast : ∀ v : Text, (c :: v).getLast?.or b = v.getLast?.or (some c) := by
      intro v
      cases v with
      | nil => rfl
      | cons d v =>
        rw [List.getLast?_cons_cons, List.getLast?_eq_some_getLast (List.cons_ne_nil d v)]
        rfl
    have hfirst : ∀ n, f b (c :: (u ++ r)) ≠ some (n + 1) :=
      h [] (c :: u) rfl (List.cons_ne_nil c u)
    have hrest : Misses f (some c) u r := by
      rintro v w rfl hw
      rw [← hlast]
      exact h (c :: v) w rfl hw
    rw [List.cons_append, replace_of_none hfirst, ih hrest, hlast]
    rfl

theorem replace_of_misses (h : Misses f b u []) : replace f replacement b u = u := by
  have hall : replace f replacement b (u ++ []) = u ++ _ := replace_append h
  rwa [List.append_nil, replace, List.append_nil] at hall

theorem afterWords?_eq (w v : String) (ws : List String) (t : Text) :
    afterWords? (w :: v :: ws) t = (Text.afterFolded? w t).bind fun s =>
      if s.head?.any Text.isBlank then afterWords? (v :: ws) (Text.trimStart s) else none := by
  rw [afterWords?]
  · cases Text.afterFolded? w t with
    | none => rfl
    | some s =>
      rw [Option.bind_eq_bind, Option.bind_some, Option.bind_some]
      cases hs : s.head?.any Text.isBlank <;> rfl
  · exact fun h => by cases h

theorem afterWords?_cons_cons {w v : String} {ws : List String} :
    afterWords? (w :: v :: ws) t = some r ↔ ∃ s, Text.afterFolded? w t = some s ∧
      s.head?.any Text.isBlank = true ∧ afterWords? (v :: ws) (Text.trimStart s) = some r := by
  rw [afterWords?_eq, Option.bind_eq_some_iff]
  refine exists_congr fun s => and_congr_right fun _ => ?_
  cases s.head?.any Text.isBlank <;> simp

theorem exists_of_afterWords? {w : String} {ws : List String}
    (h : afterWords? (w :: ws) t = some r) : ∃ s, Text.afterFolded? w t = some s := by
  cases ws with
  | nil => exact ⟨r, h⟩
  | cons v ws =>
    obtain ⟨s, hs, -⟩ := afterWords?_cons_cons.1 h
    exact ⟨s, hs⟩

theorem phraseLength?_eq_some {ws : List String} {n : Nat} (h : phraseLength? ws b t = some n) :
    b.any Text.isWordPart = false ∧ ∃ s, afterWords? ws t = some s ∧
      s.head?.any Text.isWordPart = false ∧ n = t.length - s.length := by
  unfold phraseLength? at h
  split at h
  · cases h
  · next hb =>
    split at h
    · next s hs =>
      split at h
      · cases h
      · next hn =>
        cases h
        exact ⟨by simpa using hb, s, hs, by simpa using hn, rfl⟩
    · cases h

theorem collationLength?_eq_some {n : Nat} (h : collationLength? b t = some n) :
    (b.any Text.isWordPart = false ∨ t.head?.any Text.isBlank = true) ∧
      ∃ s, afterWords? ["COLLATE", "pg_catalog.\"default\""] (Text.trimStart t) = some s ∧
        n = t.length - s.length := by
  unfold collationLength? at h
  split at h
  · cases h
  · next hb =>
    obtain ⟨s, hs, rfl⟩ := Option.map_eq_some_iff.1 h
    refine ⟨?_, s, hs, rfl⟩
    cases hw : b.any Text.isWordPart with
    | false => exact .inl rfl
    | true => exact .inr (by simpa [hw] using hb)

end

end Script

end TableDialects
