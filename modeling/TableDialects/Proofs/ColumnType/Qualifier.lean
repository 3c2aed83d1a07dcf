import TableDialects.ColumnType.Vocabulary
import TableDialects.Proofs.Text.Blank

/-!
# Numbers in qualifiers

A number below 2³² is read back from its digits, and so are a precision and a scale.
-/
namespace TableDialects

namespace Text

theorem isDigit_of_mem_ofNat {n : Nat} {c : Char} (h : c ∈ ofNat n) : c.isDigit = true :=
  Nat.isDigit_of_mem_toDigits (by decide) (by decide) h

theorem ofNat_ne_nil (n : Nat) : ofNat n ≠ [] := Nat.toDigits_ne_nil

private theorem isBlank_of_isDigit {c : Char} (h : c.isDigit = true) : isBlank c = false := by
  simp only [Char.isDigit, Bool.and_eq_true, decide_eq_true_eq, UInt32.le_iff_toNat_le] at h
  have h₁ : 48 ≤ c.toNat := h.1
  have h₂ : c.toNat ≤ 57 := h.2
  have hs : c ≠ ' ' := by rintro rfl; exact absurd h₁ (by decide)
  simp only [isBlank, Bool.or_eq_false_iff, Bool.and_eq_false_imp, decide_eq_true_eq,
    decide_eq_false_iff_not, beq_eq_false_iff_ne]
  refine ⟨⟨⟨⟨⟨⟨⟨⟨⟨⟨hs, ?_⟩, ?_⟩, ?_⟩, ?_⟩, ?_⟩, ?_⟩, ?_⟩, ?_⟩, ?_⟩, ?_⟩ <;> omega

theorem solid_ofNat (n : Nat) : Solid (ofNat n) where
  ne_nil := ofNat_ne_nil n
  head _ hc := isBlank_of_isDigit (isDigit_of_mem_ofNat (List.mem_of_mem_head? hc))
  last _ hc := isBlank_of_isDigit (isDigit_of_mem_ofNat (List.mem_of_mem_getLast? hc))

end Text

namespace Qualifier

open Text

private theorem unsigned?_ofNat {n : Nat} (h : n < UInt32.size) :
    unsigned? (ofNat n) = some (UInt32.ofNat n) := by
  have hplus : '+' ∉ ofNat n := fun hm => absurd (isDigit_of_mem_ofNat hm) (by decide)
  have hall : (ofNat n).all Char.isDigit = true :=
    List.all_eq_true.2 fun c hc => isDigit_of_mem_ofNat hc
  have hfold : (ofNat n).foldl (fun n c => 10 * n + (c.toNat - 48)) 0 = n :=
    Nat.ofDigitChars_ten_toDigits
  have hne := ofNat_ne_nil n
  unfold unsigned?
  split
  · next cs he => exact absurd (by simp [he]) hplus
  · simp only [hfold, h, if_true]
    simp [hne, hall]

theorem unsigned?_toNat (n : UInt32) : unsigned? (ofNat n.toNat) = some n := by
  rw [unsigned?_ofNat n.toNat_lt, UInt32.ofNat_toNat]

theorem positive?_ofNat {n : Nat} (hn : 0 < n) (h : n < UInt32.size) :
    positive? (ofNat n) = some (UInt32.ofNat n) := by
  have : 0 < UInt32.ofNat n := by
    rw [UInt32.lt_iff_toNat_lt, UInt32.toNat_ofNat_of_lt' h]
    exact hn
  simp [positive?, unsigned?_ofNat h, this]

theorem positive?_toNat {n : UInt32} (h : 0 < n) : positive? (ofNat n.toNat) = some n := by
  rw [positive?_ofNat (UInt32.lt_iff_toNat_lt.1 h) n.toNat_lt, UInt32.ofNat_toNat]

variable {values : List Text}

private theorem ofNat_not_comma (n : Nat) : ∀ c ∈ ofNat n, (c == ',') = false := by
  intro c hc
  have hne : c ≠ ',' := by
    rintro rfl
    exact absurd (isDigit_of_mem_ofNat hc) (by decide)
  simpa using hne

theorem parts_single (n : Nat) : parts ⟨trim (ofNat n), values⟩ = [ofNat n] := by
  rw [parts, (solid_ofNat n).trim, pieces_of_forall (ofNat_not_comma n)]
  simp [(solid_ofNat n).trim]

theorem parts_pair (m n : Nat) :
    parts ⟨trim (ofNat m ++ ',' :: ofNat n), values⟩ = [ofNat m, ofNat n] := by
  have h := ((solid_ofNat m).append [','] (solid_ofNat n)).trim
  rw [List.append_assoc, List.singleton_append] at h
  rw [parts, h, pieces_append_cons (by rfl), pieces_of_forall (ofNat_not_comma m),
    pieces_of_forall (ofNat_not_comma n)]
  simp [(solid_ofNat _).trim]

end Qualifier

end TableDialects
