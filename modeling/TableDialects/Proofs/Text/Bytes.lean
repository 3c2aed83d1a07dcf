import TableDialects.Proofs.Text.Slice

/-!
# Bytes of texts

In UTF-8 an ASCII character is one byte, and no other byte looks like one of these.
-/
namespace TableDialects.Text

/-- The bytes of a text in UTF-8. -/
def bytes (t : Text) : List UInt8 := t.flatMap String.utf8EncodeChar

@[simp] theorem bytes_nil : bytes [] = [] := rfl

@[simp] theorem bytes_cons (c : Char) (t : Text) :
    bytes (c :: t) = String.utf8EncodeChar c ++ bytes t := rfl

@[simp] theorem bytes_append (a b : Text) : bytes (a ++ b) = bytes a ++ bytes b :=
  List.flatMap_append

@[simp] theorem length_bytes (t : Text) : (bytes t).length = utf8Length t := by
  induction t with
  | nil => rfl
  | cons c t ih => simp [ih]

theorem toNat_toUInt8 {c : Char} (h : c.toNat < 128) : c.toUInt8.toNat = c.toNat :=
  Nat.mod_eq_of_lt (Nat.lt_trans h (by decide))

theorem ne_toUInt8 {c : Char} (h : c.toNat < 128) {b : UInt8} (hb : 128 ≤ b) : b ≠ c.toUInt8 := by
  rintro rfl
  rw [UInt8.le_iff_toNat_le, toNat_toUInt8 h] at hb
  exact absurd h (Nat.not_lt.2 hb)

theorem encode_of_lt {c : Char} (h : c.toNat < 128) : String.utf8EncodeChar c = [c.toUInt8] :=
  if_pos (Nat.le_of_lt_succ h)

/-- No byte of a character outside ASCII is one of ASCII. -/
theorem forall_encode {c : Char} (h : 128 ≤ c.toNat) :
    ∀ b ∈ String.utf8EncodeChar c, 128 ≤ b := by
  have hbyte : ∀ {n : Nat}, 128 ≤ n % 256 → 128 ≤ UInt8.ofNat n := by
    intro n hn
    rw [UInt8.le_iff_toNat_le, UInt8.toNat_ofNat']
    exact hn
  have hn : ¬c.val.toNat ≤ 127 := Nat.not_le.2 h
  rw [String.utf8EncodeChar]
  simp only [if_neg hn]
  split
  · simp only [List.forall_mem_cons]
    exact ⟨hbyte (by omega), hbyte (by omega), by simp⟩
  split
  · simp only [List.forall_mem_cons]
    exact ⟨hbyte (by omega), hbyte (by omega), hbyte (by omega), by simp⟩
  · simp only [List.forall_mem_cons]
    exact ⟨hbyte (by omega), hbyte (by omega), hbyte (by omega), hbyte (by omega), by simp⟩

/-- The first byte of a character is that of an ASCII character just for this character, and no
other byte is one of ASCII. -/
theorem exists_encode (c : Char) : ∃ b hs, String.utf8EncodeChar c = b :: hs ∧
    (∀ x ∈ hs, 128 ≤ x) ∧ ∀ d : Char, d.toNat < 128 → (b = d.toUInt8 ↔ c = d) := by
  by_cases hc : c.toNat < 128
  · refine ⟨c.toUInt8, [], encode_of_lt hc, by simp, fun d hd => ?_⟩
    rw [← UInt8.toNat_inj, toNat_toUInt8 hc, toNat_toUInt8 hd, Char.toNat_inj]
  · have hall := forall_encode (Nat.not_lt.1 hc)
    cases hbytes : String.utf8EncodeChar c with
    | nil => exact absurd hbytes String.utf8EncodeChar_ne_nil
    | cons b hs =>
      rw [hbytes] at hall
      obtain ⟨hb, hhs⟩ := List.forall_mem_cons.1 hall
      exact ⟨b, hs, rfl, hhs, fun d hd =>
        ⟨fun he => absurd he (ne_toUInt8 hd hb), fun he => absurd (he ▸ hd) hc⟩⟩

/-- An ASCII mark is found in the bytes where it stands in the text. -/
theorem isPrefixOf_bytes {mark t : Text} (hm : ∀ d ∈ mark, d.toNat < 128) :
    (bytes mark).isPrefixOf (bytes t) = mark.isPrefixOf t := by
  induction mark generalizing t with
  | nil => rfl
  | cons d mark ih =>
    obtain ⟨hd, hmark⟩ := List.forall_mem_cons.1 hm
    rw [bytes_cons, encode_of_lt hd, List.singleton_append]
    cases t with
    | nil => rfl
    | cons c t =>
      obtain ⟨b, hs, hbytes, -, hb⟩ := exists_encode c
      by_cases hc : c = d
      · subst hc
        rw [bytes_cons, encode_of_lt hd, List.singleton_append, List.isPrefixOf, List.isPrefixOf,
          ih hmark, beq_self_eq_true, beq_self_eq_true]
      · rw [bytes_cons, hbytes, List.cons_append, List.isPrefixOf, List.isPrefixOf,
          beq_eq_false_iff_ne.2 fun he => hc ((hb d hd).1 he.symm),
          beq_eq_false_iff_ne.2 (Ne.symm hc), Bool.false_and, Bool.false_and]

end TableDialects.Text
