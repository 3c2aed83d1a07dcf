import TableDialects.Calendar
import TableDialects.Proofs.Text.Blank

/-!
# Texts that are no dates

A date or a time of day consists of digits, blanks and marks, so a text with any other character is
neither.
-/
namespace TableDialects.Calendar

private theorem mem_mark? {c d : Char} (hd : c ≠ d) {t u : Text} (hu : mark? d t = some u)
    (h : c ∈ t) : c ∈ u := by
  cases t with
  | nil => simp at h
  | cons e t =>
    simp only [mark?] at hu
    split at hu
    · next he =>
      obtain rfl := Option.some.inj hu
      exact (List.mem_cons.1 h).resolve_left (he ▸ hd)
    · exact absurd hu (by simp)

/-- A character that no date and no time of day has. -/
structure Foreign (c : Char) : Prop where
  digit : c.isDigit = false
  blank : Text.isBlank c = false
  mark : c ∉ ['-', '+', ':', '.']

namespace Foreign

variable {c : Char} (hc : Foreign c) {t : Text}
include hc

private theorem mem_trimStart (h : c ∈ t) : c ∈ Text.trimStart t := Text.mem_dropWhile hc.blank h

private theorem mem_drop {ds : Text} (hd : ds <+: t) (hds : ds.all Char.isDigit = true)
    (h : c ∈ t) : c ∈ t.drop ds.length := by
  obtain ⟨u, rfl⟩ := hd
  rw [List.drop_left]
  refine (List.mem_append.1 h).resolve_left fun hm => ?_
  exact absurd (List.all_eq_true.1 hds c hm) (by simp [hc.digit])

private theorem mem_number? {width : Nat} {p : Nat × Text} (hp : number? width t = some p)
    (h : c ∈ t) : c ∈ p.2 := by
  simp only [number?] at hp
  split at hp
  · exact absurd hp (by simp)
  · obtain rfl := Option.some.inj hp
    have hprefix : (t.take width).takeWhile Char.isDigit <+: t :=
      (List.takeWhile_prefix _).trans (List.take_prefix _ _)
    exact hc.mem_drop hprefix List.all_takeWhile h

private theorem mem_field? {least most : Nat} {p : Nat × Text} (hp : field? least most t = some p)
    (h : c ∈ t) : c ∈ p.2 :=
  hc.mem_number? (Option.filter_eq_some_iff.1 hp).1 (hc.mem_trimStart h)

private theorem mem_year? {p : Int × Text} (hp : year? t = some p) (h : c ∈ t) : c ∈ p.2 := by
  have hyear := (Option.filter_eq_some_iff.1 hp).1
  have hm := hc.mem_trimStart h
  have hmark := hc.mark
  simp only [List.mem_cons, not_or] at hmark
  split at hyear
  · next cs he =>
    obtain ⟨q, hq, rfl⟩ := Option.map_eq_some_iff.1 hyear
    exact hc.mem_number? hq ((List.mem_cons.1 (he ▸ hm)).resolve_left hmark.1)
  · next cs he =>
    obtain ⟨q, hq, rfl⟩ := Option.map_eq_some_iff.1 hyear
    exact hc.mem_number? hq ((List.mem_cons.1 (he ▸ hm)).resolve_left hmark.2.1)
  · obtain ⟨q, hq, rfl⟩ := Option.map_eq_some_iff.1 hyear
    exact hc.mem_number? hq hm

private theorem mem_afterDate? {u : Text} (hu : afterDate? t = some u) (h : c ∈ t) : c ∈ u := by
  have hmark := hc.mark
  simp only [List.mem_cons, not_or] at hmark
  simp only [afterDate?, Option.bind_eq_bind, Option.pure_def, Option.bind_eq_some_iff,
    Option.some.injEq] at hu
  obtain ⟨y, hy, m₁, hm₁, m, hm, d₁, hd₁, d, hd, rfl⟩ := hu
  have h₁ := mem_mark? hmark.1 hm₁ (hc.mem_year? hy h)
  exact hc.mem_field? hd (mem_mark? hmark.1 hd₁ (hc.mem_field? hm h₁))

private theorem mem_afterTime? {u : Text} (hu : afterTime? t = some u) (h : c ∈ t) : c ∈ u := by
  have hmark := hc.mark
  simp only [List.mem_cons, not_or] at hmark
  simp only [afterTime?, Option.bind_eq_bind, Option.bind_eq_some_iff] at hu
  obtain ⟨a, ha, b₁, hb₁, b, hb, s₁, hs₁, s, hs, hrest⟩ := hu
  have h₁ := mem_mark? hmark.2.2.1 hb₁ (hc.mem_field? ha h)
  have h₂ := hc.mem_field? hs (mem_mark? hmark.2.2.1 hs₁ (hc.mem_field? hb h₁))
  split at hrest
  · next cs he =>
    split at hrest
    · exact absurd hrest (by simp)
    · obtain rfl := Option.some.inj hrest
      refine Text.mem_dropWhile hc.digit ((List.mem_cons.1 (he ▸ h₂)).resolve_left hmark.2.2.2.1)
  · obtain rfl := Option.some.inj hrest
    exact h₂

theorem isDate_eq_false (h : c ∈ t) : isDate t = false := by
  by_contra hd
  have hd : afterDate? t = some [] := by simpa [isDate] using hd
  exact absurd (hc.mem_afterDate? hd h) List.not_mem_nil

theorem isDateTime_eq_false (h : c ∈ t) : isDateTime t = false := by
  by_contra hd
  have hd : (afterDate? t).bind afterTime? = some [] := by simpa [isDateTime] using hd
  obtain ⟨u, hu, ht⟩ := Option.bind_eq_some_iff.1 hd
  exact absurd (hc.mem_afterTime? ht (hc.mem_afterDate? hu h)) List.not_mem_nil

end Foreign

end TableDialects.Calendar
