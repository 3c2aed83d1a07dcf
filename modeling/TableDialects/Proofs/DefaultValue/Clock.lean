import TableDialects.Proofs.DefaultValue.Event
import TableDialects.Proofs.Token.Lettercase

/-!
# Calls of the clock in capitals

Letters that differ by case alone make the same call of the clock. In capitals such a call has as
many characters, and each is the capital of one.
-/
namespace TableDialects

namespace DefaultValue

/-- A map that takes each character to one that a call of the clock may have in its place. -/
structure KeepsClock (f : Char → Char) : Prop where
  fold : ∀ c, Text.foldChar (f c) = Text.foldChar c
  digit : ∀ c, Text.isNumeralDigit (f c) = Text.isNumeralDigit c

private theorem keepsClock_toUpper : KeepsClock Char.toUpper where
  fold := Text.apply_toUpper Text.foldChar (by decide)
  digit := Text.apply_toUpper Text.isNumeralDigit (by decide)

/-- Only a parenthesis folds to it. -/
theorem foldChar_eq_iff {d : Char} (hd : d = '(' ∨ d = ')') (c : Char) :
    Text.foldChar c = d ↔ c = d := by
  have hfold : (Text.foldChar 'ſ' ≠ d ∧ 'ſ' ≠ d) ∧
      (Text.foldChar '\u212A' ≠ d ∧ '\u212A' ≠ d) := by
    rcases hd with rfl | rfl <;> decide
  have hlower : decide (c.toLower = d) = decide (c = d) := by
    refine Text.apply_toLower (fun c => decide (c = d)) ?_ c
    rcases hd with rfl | rfl <;> decide
  by_cases hc : c = 'ſ' ∨ c = '\u212A'
  · rcases hc with rfl | rfl
    · exact iff_of_false hfold.1.1 hfold.1.2
    · exact iff_of_false hfold.2.1 hfold.2.2
  · have hn : c.toNat ≠ 0x17F ∧ c.toNat ≠ 0x212A := by
      simpa [Char.ext_iff, ← UInt32.toNat_inj] using hc
    rw [Text.foldChar, if_neg hn.1, if_neg hn.2]
    simpa using hlower

namespace KeepsClock

variable {f : Char → Char} (hf : KeepsClock f) (t : Text)
include hf

private theorem eq_iff {d : Char} (hd : d = '(' ∨ d = ')') (c : Char) : f c = d ↔ c = d := by
  rw [← foldChar_eq_iff hd, hf.fold, foldChar_eq_iff hd]

private theorem afterPrecision_map : afterPrecision (t.map f) = (afterPrecision t).map f := by
  have hopen := hf.eq_iff (.inl rfl)
  have hclose := hf.eq_iff (.inr rfl)
  cases t with
  | nil => rfl
  | cons c cs =>
    by_cases hc : c = '('
    · subst hc
      have hdrop : (cs.map f).dropWhile Text.isNumeralDigit =
          (cs.dropWhile Text.isNumeralDigit).map f := by
        rw [List.dropWhile_map]
        exact congrArg _ (congrArg (List.dropWhile · cs) (funext hf.digit))
      rw [List.map_cons, (hopen '(').2 rfl, afterPrecision, afterPrecision, hdrop]
      cases cs.dropWhile Text.isNumeralDigit with
      | nil => simp [(hopen '(').2 rfl]
      | cons d ds =>
        by_cases hd : d = ')'
        · subst hd
          simp [(hclose ')').2 rfl]
        · simp [hclose, hd, (hopen '(').2 rfl]
    · simp [afterPrecision, hopen, hc]

private theorem afterFolded?_map (head : Text) :
    Text.afterFolded? head (t.map f) = (Text.afterFolded? head t).map (List.map f) := by
  have hfold : ∀ u : Text, Text.fold (u.map f) = Text.fold u := fun u => by
    simp [Text.fold, hf.fold]
  rw [Text.afterFolded?, ← List.map_take, hfold, ← List.map_drop, Text.afterFolded?,
    apply_ite (Option.map (List.map f))]
  rfl

private theorem afterClock?_map : afterClock? (t.map f) = (afterClock? t).map (List.map f) := by
  have hcall := hf.afterFolded?_map t
  simp only [afterClock?, hcall, Option.map_or, Option.map_map, Function.comp_def,
    hf.afterPrecision_map]

private theorem afterEvent?_map : afterEvent? (t.map f) = (afterEvent? t).map (List.map f) := by
  have hcall := hf.afterFolded?_map t
  simp only [afterEvent?, hcall, Option.map_or]

theorem isClock_map : isClock (t.map f) = isClock t := by
  have hend : ∀ o : Option Text, (o.map (List.map f) == some []) = (o == some []) := by
    rintro (_ | _ | ⟨c, u⟩) <;> rfl
  rw [isClock, isClock, hf.afterClock?_map]
  rcases afterClock? t with _ | _ | ⟨c, rest⟩
  · rfl
  · rfl
  · have hevent := hf.afterEvent?_map (c :: rest)
    have hclock : (afterEvent? ((c :: rest).map f)).bind afterClock? =
        ((afterEvent? (c :: rest)).bind afterClock?).map (List.map f) := by
      rw [hevent, Option.bind_map, Option.map_bind]
      congr 1
      funext u
      exact hf.afterClock?_map u
    exact (congrArg (· == some []) hclock).trans (hend _)

end KeepsClock

theorem isClock_upperAscii (t : Text) : isClock (Text.upperAscii t) = isClock t :=
  keepsClock_toUpper.isClock_map t

/-- The capital of a character that a call of the clock may have. -/
def capital (c : Char) : Char := if c = 'ſ' then 'S' else c.toUpper

theorem keepsClock_capital : KeepsClock capital where
  fold c := by
    rw [capital]
    split
    · next hc => rw [hc]; decide
    · exact keepsClock_toUpper.fold c
  digit c := by
    rw [capital]
    split
    · next hc => rw [hc]; decide
    · exact keepsClock_toUpper.digit c

theorem capital_capital (c : Char) : capital (capital c) = capital c := by
  have hsmall : ∀ c : Char, c.toUpper = 'ſ' ↔ c = 'ſ' := Text.toUpper_eq_iff (by decide)
  have htwice : ∀ c : Char, c.toUpper.toUpper = c.toUpper :=
    Text.apply_toUpper Char.toUpper (by decide)
  by_cases hc : c = 'ſ'
  · rw [hc]
    decide
  · have hself : capital c = c.toUpper := if_neg hc
    rw [hself, capital, if_neg ((hsmall c).not.2 hc), htwice]

/-- No digit of a script has a capital. -/
theorem upperChar_of_isNumeralDigit {c : Char} (h : Text.isNumeralDigit c = true) :
    Text.upperChar c = [c.toUpper] := by
  by_cases hascii : Text.isAscii c = true
  · rw [Text.upperChar, if_pos hascii]
  have hdigit : Text.within Text.LetterTable.digits c = true := by
    rw [Text.isNumeralDigit, Bool.and_eq_true, Text.isDecimal, if_neg hascii] at h
    exact h.1
  simp only [Text.within, List.any_eq_true, Bool.and_eq_true, decide_eq_true_eq] at hdigit
  obtain ⟨d, hd, hfirst, hlast⟩ := hdigit
  have hexpansions : ∀ e ∈ Text.CaseTable.expansions, ∀ d ∈ Text.LetterTable.digits,
      e.1 < d.1 ∨ d.2 < e.1 := by decide +kernel
  have hruns : ∀ r ∈ Text.CaseTable.runs, ∀ d ∈ Text.LetterTable.digits,
      r.last < d.1 ∨ d.2 < r.first := by decide +kernel
  have hexpansion : Text.CaseTable.expansions.find? (·.1 == c.toNat) = none := by
    refine List.find?_eq_none.2 fun e he hc => ?_
    have := hexpansions e he d hd
    have : e.1 = c.toNat := by simpa using hc
    omega
  have hrun : Text.CaseTable.runs.find? (·.covers c.toNat) = none := by
    refine List.find?_eq_none.2 fun r hr hc => ?_
    have := hruns r hr d hd
    simp only [Text.CaseTable.Run.covers, Bool.and_eq_true, decide_eq_true_eq] at hc
    omega
  have hself : c.toUpper = c := by
    refine Text.toUpper_of_not_mem fun hc => hascii ?_
    have := (List.mem_range'_1.1 hc).2
    simp only [Text.isAscii, decide_eq_true_eq]
    omega
  rw [Text.upperChar, if_neg hascii, hexpansion, hrun, hself]

/-- A character of a call folds to one in ASCII. -/
theorem isAscii_of_foldChar {c : Char} (hc : c ≠ 'ſ') {head : String}
    (hh : head ∈ ["CURRENT_TIMESTAMP", "NOW()", " ON UPDATE ", " ON INSERT "])
    (h : Text.foldChar c ∈ Text.fold head) : Text.isAscii c = true := by
  have hheads : ∀ head ∈ ["CURRENT_TIMESTAMP", "NOW()", " ON UPDATE ", " ON INSERT "],
      'k' ∉ Text.fold head ∧ (Text.fold head).all Text.isAscii = true := by decide
  obtain ⟨hkelvin, hascii⟩ := hheads head hh
  have hn : c.toNat ≠ 0x17F := fun hn => hc (Char.ext (UInt32.toNat_inj.1 hn))
  rw [Text.foldChar, if_neg hn] at h
  split at h
  · exact absurd h hkelvin
  · rw [List.all_eq_true] at hascii
    rcases Text.toLower_eq_or_mem c with hself | hcapital
    · exact hself ▸ hascii _ h
    · have := (List.mem_range'_1.1 hcapital).2
      simp only [Text.isAscii, decide_eq_true_eq]
      omega

/-- An ASCII character or one of a call has its capital and nothing else as upper case. -/
theorem upperChar_eq_capital {c : Char} (h : Text.isAscii c = true ∨ ¬ OutsideClock c) :
    Text.upperChar c = [capital c] := by
  by_cases hc : c = 'ſ'
  · rw [hc]
    decide +kernel
  rw [capital, if_neg hc]
  rcases h with hascii | hcall
  · rw [Text.upperChar, if_pos hascii]
  by_cases hdigit : Text.isNumeralDigit c = true
  · exact upperChar_of_isNumeralDigit hdigit
  · obtain ⟨head, hh, hfold⟩ : ∃ head ∈ ["CURRENT_TIMESTAMP", "NOW()", " ON UPDATE ", " ON INSERT "],
        Text.foldChar c ∈ Text.fold head := by
      by_contra hnone
      exact hcall ⟨by simpa using hdigit, fun head hh hm => hnone ⟨head, hh, hm⟩⟩
    rw [Text.upperChar, if_pos (isAscii_of_foldChar hc hh hfold)]

/-- The upper case of the text has one character for each of its characters, and is upper case. -/
structure HasCapitals (t : Text) : Prop where
  upper : Text.upper t = t.map capital
  upper_map : Text.upper (t.map capital) = t.map capital

private theorem hasCapitals_of_forall {t : Text}
    (h : ∀ c ∈ t, Text.isAscii c = true ∨ ¬ OutsideClock c) : HasCapitals t := by
  have hsingle : ∀ u : Text, (∀ c ∈ u, Text.isAscii c = true ∨ ¬ OutsideClock c) →
      Text.upper u = u.map capital := fun u hu => by
    rw [Text.upper, List.map_eq_flatMap]
    exact List.flatMap_congr fun c hc => upperChar_eq_capital (hu c hc)
  have hascii : Text.isAscii 'S' = true ∧ ∀ c : Char, Text.isAscii c.toUpper = Text.isAscii c :=
    ⟨by decide, Text.apply_toUpper Text.isAscii (by decide)⟩
  refine ⟨hsingle t h, ?_⟩
  rw [hsingle (t.map capital), List.map_map]
  · exact List.map_congr_left fun c _ => capital_capital c
  · intro d hd
    obtain ⟨c, hc, rfl⟩ := List.mem_map.1 hd
    refine (h c hc).imp (fun hc => ?_) fun hcall hout => hcall ?_
    · rw [capital]
      split
      · exact hascii.1
      · rw [hascii.2, hc]
    · exact ⟨keepsClock_capital.digit c ▸ hout.digit, fun head hh =>
        keepsClock_capital.fold c ▸ hout.fold head hh⟩

theorem hasCapitals_of_isClock {t : Text} (h : isClock t = true) : HasCapitals t :=
  hasCapitals_of_forall fun _ hc => .inr fun hout => hout.not_mem h hc

/-- A truth value is written in ASCII. -/
theorem hasCapitals_of_truth {t : Text} (h : Text.oneOf ["true", "false"] t = true) :
    HasCapitals t := by
  refine hasCapitals_of_forall fun c hc => .inl ?_
  obtain ⟨name, hname, hsame⟩ := List.any_eq_true.1 h
  have hlower : c.toLower ∈ Text.lowerAscii name := by
    rw [← beq_iff_eq.1 hsame]
    exact List.mem_map_of_mem hc
  have hascii : ∀ name ∈ ["true", "false"], (Text.lowerAscii name).all Text.isAscii = true := by
    decide
  rw [← Text.apply_toLower Text.isAscii (by decide) c]
  exact List.all_eq_true.1 (hascii name hname) _ hlower

end DefaultValue

end TableDialects
