import TableDialects.Proofs.Text.Infix
import TableDialects.Proofs.Token.Capital
import TableDialects.Text.Case
import TableDialects.Token.Group

/-!
# Keywords and groups in capitals

Names and keywords are compared without regard to case, so every test of a token has the same
answer for the token in capitals, and groups are where they were.
-/
namespace TableDialects

namespace Text

private theorem lowerAscii_upperAscii (t : Text) : lowerAscii (upperAscii t) = lowerAscii t := by
  have h : ∀ c : Char, c.toUpper.toLower = c.toLower := apply_toUpper Char.toLower (by decide)
  simp [lowerAscii, upperAscii, h]

@[simp] theorem same_upperAscii_left (a b : Text) : same (upperAscii a) b = same a b := by
  rw [same, lowerAscii_upperAscii, same]

@[simp] theorem same_upperAscii_right (a b : Text) : same a (upperAscii b) = same a b := by
  rw [same, lowerAscii_upperAscii, same]

@[simp] theorem oneOf_upperAscii (names : List String) (t : Text) :
    oneOf names (upperAscii t) = oneOf names t := by
  simp [oneOf]

theorem isEmpty_upperAscii (t : Text) : (upperAscii t).isEmpty = t.isEmpty := List.isEmpty_map

theorem lower_upperAscii (t : Text) : lower (upperAscii t) = lower t := by
  have h : ∀ c : Char, lowerChar c.toUpper = lowerChar c := apply_toUpper lowerChar (by decide)
  simp [lower, upperAscii, List.flatMap_map, h]

theorem lower_lowerAscii (t : Text) : lower (lowerAscii t) = lower t := by
  have hlower : ∀ c : Char, lowerChar c.toLower = lowerChar c := apply_toLower lowerChar (by decide)
  simp [lower, lowerAscii, List.flatMap_map, hlower]

theorem upper_upperAscii (t : Text) : upper (upperAscii t) = upper t := by
  have h : ∀ c : Char, upperChar c.toUpper = upperChar c :=
    apply_toUpper upperChar (by decide +kernel)
  simp [upper, upperAscii, List.flatMap_map, h]

theorem collapsed_lowerAscii (t : Text) : collapsed (lowerAscii t) = lowerAscii (collapsed t) :=
  collapsed_map (apply_toLower isBlank (by decide)) t rfl

theorem collapsed_upperAscii (t : Text) : collapsed (upperAscii t) = upperAscii (collapsed t) :=
  collapsed_map isBlank_toUpper t rfl

/-- What comes to nothing on a text with an ASCII letter does not depend on the case. -/
theorem apply_upperAscii {α : Type} {f : Text → α} {a : α}
    (hf : ∀ t, ∀ c ∈ t, c.toNat ∈ smallLetters ++ capitals → f t = a) (t : Text) :
    f (upperAscii t) = f t := by
  by_cases h : ∀ c ∈ t, c.toUpper = c
  · rw [upperAscii, List.map_congr_left h, List.map_id']
  · obtain ⟨c, hc, hne⟩ : ∃ c ∈ t, c.toUpper ≠ c := by simpa using h
    have hcapitals : ∀ n ∈ smallLetters, (Char.ofNat n).toUpper.toNat ∈ capitals := by decide
    have hsmall := (toUpper_eq_or_mem c).resolve_left hne
    have hcapital := hcapitals c.toNat hsmall
    rw [Char.ofNat_toNat] at hcapital
    rw [hf t c hc (List.mem_append_left _ hsmall),
      hf (upperAscii t) c.toUpper (List.mem_map_of_mem hc) (List.mem_append_right _ hcapital)]

/-- A property of all ASCII letters by their numbers. -/
theorem of_mem_letters {p : Char → Prop} (hp : ∀ n ∈ smallLetters ++ capitals, p (Char.ofNat n))
    {c : Char} (hc : c.toNat ∈ smallLetters ++ capitals) : p c := by
  have h := hp c.toNat hc
  rwa [Char.ofNat_toNat] at h

theorem toUpper_of_not_mem {c : Char} (h : c.toNat ∉ smallLetters) : c.toUpper = c :=
  (toUpper_eq_or_mem c).resolve_right h

/-- No small ASCII letter is the capital of another character. -/
theorem not_mem_shift {r : CaseTable.Run} (hr : r ∈ CaseTable.runs) {n : Nat}
    (hn : r.covers n = true) : (n + r.shift).toNat ∉ smallLetters := by
  have hruns : ∀ r ∈ CaseTable.runs, r.last + r.shift < 97 ∨ 122 < r.first + r.shift := by
    decide +kernel
  have hshift := hruns r hr
  simp only [CaseTable.Run.covers, Bool.and_eq_true, decide_eq_true_eq] at hn
  rw [smallLetters, List.mem_range'_1]
  omega

private theorem toNat_ofNat_not_mem {n : Nat} (hn : n ∉ smallLetters) :
    (Char.ofNat n).toNat ∉ smallLetters := by
  by_cases hvalid : n.isValidChar
  · rw [Char.ofNat, dif_pos hvalid]
    exact hn
  · rw [Char.ofNat, dif_neg hvalid]
    decide

private theorem upperAscii_upperChar (c : Char) : upperAscii (upperChar c) = upperChar c := by
  have hexpansions : ∀ e ∈ CaseTable.expansions,
      upperAscii (e.2.map Char.ofNat) = e.2.map Char.ofNat := by decide +kernel
  have hsingle : ∀ d : Char, d.toUpper = d → upperAscii [d] = [d] := fun d hd => by
    rw [upperAscii, List.map_singleton, hd]
  rw [upperChar]
  split
  · exact hsingle _ (apply_toUpper Char.toUpper (by decide) c)
  · next hascii =>
    split
    · next e he => exact hexpansions e (List.mem_of_find?_eq_some he)
    · split
      · next r hr =>
        refine hsingle _ (toUpper_of_not_mem ?_)
        have hcovers : r.covers c.toNat = true := by simpa using List.find?_some hr
        exact toNat_ofNat_not_mem (not_mem_shift (List.mem_of_find?_eq_some hr) hcovers)
      · refine hsingle c (toUpper_of_not_mem fun hc => hascii ?_)
        have hlt := (List.mem_range'_1.1 hc).2
        simp only [isAscii, decide_eq_true_eq]
        omega

theorem upperAscii_upper (t : Text) : upperAscii (upper t) = upper t := by
  rw [upper, upperAscii, List.map_flatMap]
  congr 1
  funext c
  exact upperAscii_upperChar c

end Text

namespace Token

section
variable (t : Token)

@[simp] theorem word?_upperAscii : t.upperAscii.word? = t.word?.map Text.upperAscii := by
  cases t <;> rfl

@[simp] theorem isWord_upperAscii (keyword : String) :
    t.upperAscii.isWord keyword = t.isWord keyword := by
  cases t <;> simp [upperAscii, isWord]

@[simp] theorem isOneOf_upperAscii (keywords : List String) :
    t.upperAscii.isOneOf keywords = t.isOneOf keywords := by
  cases t <;> simp [upperAscii, isOneOf]

@[simp] theorem isNumber_upperAscii : t.upperAscii.isNumber = t.isNumber := by
  cases t <;> rfl

@[simp] theorem name?_upperAscii : t.upperAscii.name? = t.name?.map Text.upperAscii := by
  cases t with
  | quoted q v =>
    by_cases hq : q = '\"'
    · subst hq
      rfl
    · simp [upperAscii, name?, hq]
  | _ => rfl

@[simp] theorem upperAscii_eq_openParen : t.upperAscii = .openParen ↔ t = .openParen := by
  cases t <;> simp [upperAscii]

@[simp] theorem upperAscii_eq_closeParen : t.upperAscii = .closeParen ↔ t = .closeParen := by
  cases t <;> simp [upperAscii]

@[simp] theorem upperAscii_eq_comma : t.upperAscii = .comma ↔ t = .comma := by
  cases t <;> simp [upperAscii]

@[simp] theorem upperAscii_eq_point : t.upperAscii = .punct '.' ↔ t = .punct '.' := by
  have hpoint : ∀ c : Char, c.toUpper = '.' ↔ c = '.' := Text.toUpper_eq_iff (by decide)
  cases t <;> simp [upperAscii, hpoint]

@[simp] theorem upperAscii_eq_cast : t.upperAscii = .cast ↔ t = .cast := by
  cases t <;> simp [upperAscii]

end

private theorem closing?_upperAscii (depth : Nat) (ts : List Token) :
    closing? depth (ts.map upperAscii) = closing? depth ts := by
  induction ts generalizing depth with
  | nil => rfl
  | cons t ts ih =>
    cases t with
    | closeParen =>
      change (if depth ≤ 1 then some 0 else (closing? (depth - 1) (ts.map upperAscii)).map (· + 1)) = _
      rw [ih]
      rfl
    | openParen => exact congrArg (Option.map (· + 1)) (ih (depth + 1))
    | _ => exact congrArg (Option.map (· + 1)) (ih depth)

end Token

namespace Lexeme

@[simp] theorem token_upperAscii (l : Lexeme) : l.upperAscii.token = l.token.upperAscii := rfl

section
variable {p : Lexeme → Bool} (hp : ∀ l : Lexeme, p l.upperAscii = p l) (ls : List Lexeme)
include hp

theorem takeWhile_upperAscii : (ls.map upperAscii).takeWhile p = (ls.takeWhile p).map upperAscii := by
  rw [List.takeWhile_map]
  congr 2
  funext l
  exact hp l

theorem dropWhile_upperAscii : (ls.map upperAscii).dropWhile p = (ls.dropWhile p).map upperAscii := by
  rw [List.dropWhile_map]
  congr 2
  funext l
  exact hp l

end

section
variable (ls : List Lexeme)

theorem map_token_upperAscii :
    (ls.map upperAscii).map (·.token) = (ls.map (·.token)).map Token.upperAscii := by
  simp

@[simp] theorem nextIs_upperAscii (keyword : String) :
    nextIs keyword (ls.map upperAscii) = nextIs keyword ls := by
  cases ls <;> simp [nextIs]

private theorem source_upperAscii : source (ls.map upperAscii) = Text.upperAscii (source ls) := by
  rw [source, List.flatMap_map, source, Text.upperAscii, List.map_flatMap]
  congr 1
  funext l
  exact (Text.upperAscii_append l.gap l.text).symm

theorem sourceFromToken_upperAscii :
    sourceFromToken (ls.map upperAscii) = Text.upperAscii (sourceFromToken ls) := by
  cases ls with
  | nil => rfl
  | cons l ls =>
    rw [List.map_cons, sourceFromToken, source_upperAscii, sourceFromToken, Text.upperAscii_append]
    rfl

@[simp] theorem groupLength_upperAscii : groupLength (ls.map upperAscii) = groupLength ls := by
  rw [groupLength, Token.groupEnd, map_token_upperAscii, List.drop_zero, Token.closing?_upperAscii,
    List.length_map, groupLength, Token.groupEnd, List.drop_zero]

@[simp] theorem leadingGroup_upperAscii : leadingGroup (ls.map upperAscii) = leadingGroup ls := by
  cases ls with
  | nil => rfl
  | cons l ls =>
    rw [leadingGroup, groupLength_upperAscii, leadingGroup]
    simp

/-- Whether the last of the lexemes closes a group. -/
theorem closes_upperAscii {o : Option Lexeme} :
    (o.map upperAscii).map (·.token) = some .closeParen ↔ o.map (·.token) = some .closeParen := by
  cases o <;> simp

theorem groupInner_upperAscii : groupInner (ls.map upperAscii) = (groupInner ls).map upperAscii := by
  simp only [groupInner, groupLength_upperAscii, ← List.map_take, ← List.map_tail, List.getLast?_map,
    closes_upperAscii]
  split
  · rw [List.map_dropLast]
  · rfl

theorem groupText_upperAscii :
    groupText (ls.map upperAscii) = Text.upperAscii (groupText ls) := by
  simp only [groupText, groupLength_upperAscii, groupInner_upperAscii, source_upperAscii,
    ← List.map_take, ← List.map_tail, List.getLast?_map, Text.upperAscii_append]
  congr 1
  cases (ls.take (groupLength ls)).tail.getLast? with
  | none => rfl
  | some l =>
    by_cases hl : l.token = .closeParen
    · simp [Option.filter_some, hl]
      rfl
    · simp [Option.filter_some, hl]
      rfl

end

end Lexeme

end TableDialects
