import TableDialects.Proofs.Script.Match
import TableDialects.Proofs.Script.Segment
import TableDialects.Proofs.Statement.Scanning
import TableDialects.Script.Conversion

/-!
# Line breaks

A line may end with a carriage return and a line feed instead of a line feed alone. Each reader of
a script before its lines are told apart takes the two characters where it takes the one, so the
tables and the problems of the script stay the same.
-/
namespace TableDialects

namespace Text

/-- The text with a carriage return in front of each line feed. -/
def crlf (t : Text) : Text := t.flatMap fun c => if c = '\n' then ['\r', '\n'] else [c]

section
variable {c : Char} {t u : Text}

theorem crlf_newline (t : Text) : crlf ('\n' :: t) = '\r' :: '\n' :: crlf t := rfl

theorem crlf_cons (h : c ≠ '\n') (t : Text) : crlf (c :: t) = c :: crlf t := by
  simp [crlf, h]

theorem crlf_append (t u : Text) : crlf (t ++ u) = crlf t ++ crlf u := List.flatMap_append

private theorem take_crlf (t : Text) (n : Nat) :
    (crlf t).take (crlf (t.take n)).length = crlf (t.take n) := by
  have happend := crlf_append (t.take n) (t.drop n)
  rw [List.take_append_drop] at happend
  rw [happend, List.take_left]

private theorem drop_crlf (t : Text) (n : Nat) :
    (crlf t).drop (crlf (t.take n)).length = crlf (t.drop n) := by
  have happend := crlf_append (t.take n) (t.drop n)
  rw [List.take_append_drop] at happend
  rw [happend, List.drop_left]

theorem crlf_of_not_mem (h : '\n' ∉ t) : crlf t = t := by
  induction t with
  | nil => rfl
  | cons c t ih =>
    simp only [List.mem_cons, not_or] at h
    rw [crlf_cons (Ne.symm h.1), ih h.2]

private theorem crlf_ne_nil (h : t ≠ []) : crlf t ≠ [] := by
  obtain ⟨c, t, rfl⟩ := List.exists_cons_of_ne_nil h
  by_cases hc : c = '\n'
  · subst hc
    simp [crlf_newline]
  · simp [crlf_cons hc]

private theorem getLast?_crlf (t : Text) : (crlf t).getLast? = t.getLast? := by
  rcases List.eq_nil_or_concat t with rfl | ⟨t, c, rfl⟩
  · rfl
  · by_cases hc : c = '\n'
    · subst hc
      simp [crlf]
    · simp [crlf, hc]

/-- A beginning without line breaks is the beginning of the text as it was. -/
theorem exists_of_crlf_eq_append {r : Text} (hr : '\r' ∉ u) (hn : '\n' ∉ u)
    (h : crlf t = u ++ r) : ∃ s, t = u ++ s ∧ r = crlf s := by
  induction u generalizing t with
  | nil => exact ⟨t, rfl, h.symm⟩
  | cons d u ih =>
    simp only [List.mem_cons, not_or] at hr hn
    cases t with
    | nil => cases h
    | cons c t =>
      have hc : c ≠ '\n' := by
        rintro rfl
        exact hr.1 (List.cons.inj h).1
      rw [crlf_cons hc, List.cons_append] at h
      obtain ⟨rfl, ht⟩ := List.cons.inj h
      obtain ⟨s, rfl, hs⟩ := ih hr.2 hn.2 ht
      exact ⟨s, rfl, hs⟩

private theorem isPrefixOf_crlf (hr : '\r' ∉ u) (hn : '\n' ∉ u) (t : Text) :
    u.isPrefixOf (crlf t) = u.isPrefixOf t := by
  rw [Bool.eq_iff_iff, List.isPrefixOf_iff_prefix, List.isPrefixOf_iff_prefix]
  constructor
  · rintro ⟨r, h⟩
    obtain ⟨s, rfl, -⟩ := exists_of_crlf_eq_append hr hn h.symm
    exact List.prefix_append u s
  · rintro ⟨s, rfl⟩
    rw [crlf_append, crlf_of_not_mem hn]
    exact List.prefix_append u _

theorem head?_any_crlf {p : Char → Bool} (h : p '\r' = p '\n') (t : Text) :
    (crlf t).head?.any p = t.head?.any p := by
  cases t with
  | nil => rfl
  | cons c t =>
    by_cases hc : c = '\n'
    · subst hc
      exact h
    · rw [crlf_cons hc, List.head?_cons, List.head?_cons]

private theorem trimStart_crlf (t : Text) : trimStart (crlf t) = crlf (trimStart t) := by
  induction t with
  | nil => rfl
  | cons c t ih =>
    by_cases hc : c = '\n'
    · subst hc
      exact ih
    · rw [crlf_cons hc, trimStart, trimStart, List.dropWhile_cons, List.dropWhile_cons]
      split
      · exact ih
      · rw [crlf_cons hc]

private theorem filter_crlf {p : Char → Bool} (hr : p '\r' = true) (hn : p '\n' = true) (t : Text) :
    (crlf t).filter p = crlf (t.filter p) := by
  induction t with
  | nil => rfl
  | cons c t ih =>
    by_cases hc : c = '\n'
    · subst hc
      rw [crlf_newline, List.filter_cons_of_pos hr, List.filter_cons_of_pos hn,
        List.filter_cons_of_pos hn, ih, crlf_newline]
    · rw [crlf_cons hc, List.filter_cons, List.filter_cons]
      split
      · rw [crlf_cons hc, ih]
      · exact ih

end

end Text

open Text (crlf)

namespace Segment

/-- A reader that takes `n t` characters of a text takes what becomes of them. -/
def TakesBreaks (n : Text → Nat) (t : Text) : Prop := n (crlf t) = (crlf (t.take (n t))).length

private theorem TakesBreaks.take {n : Text → Nat} {t : Text} (h : TakesBreaks n t) :
    (crlf t).take (n (crlf t)) = crlf (t.take (n t)) := by
  rw [h, Text.take_crlf]

private theorem TakesBreaks.drop {n : Text → Nat} {t : Text} (h : TakesBreaks n t) :
    (crlf t).drop (n (crlf t)) = crlf (t.drop (n t)) := by
  rw [h, Text.drop_crlf]

private theorem takesBreaks_literalLength (t : Text) : TakesBreaks literalLength t := by
  have hslash : '\\' ≠ '\n' := by decide
  have hquote : '\'' ≠ '\n' := by decide
  unfold TakesBreaks
  fun_induction literalLength t with
  | case1 => rfl
  | case2 d cs ih =>
    rw [Nat.add_comm 2, List.take_succ_cons, List.take_succ_cons, Text.crlf_cons hslash,
      Text.crlf_cons hslash]
    by_cases hd : d = '\n'
    · -- of a line break only the first character is escaped, and the second closes no literal
      subst hd
      rw [Text.crlf_newline, Text.crlf_newline, literalLength,
        literalLength_cons (by decide) (by decide), ih]
      simp only [List.length_cons]
      omega
    · rw [Text.crlf_cons hd, Text.crlf_cons hd, literalLength, ih]
      simp only [List.length_cons]
      omega
  | case3 cs ih =>
    rw [Nat.add_comm 2, List.take_succ_cons, List.take_succ_cons, Text.crlf_cons hquote,
      Text.crlf_cons hquote, Text.crlf_cons hquote, Text.crlf_cons hquote, literalLength, ih]
    simp only [List.length_cons]
    omega
  | case4 cs h =>
    rw [List.take_succ_cons, List.take_zero, Text.crlf_cons hquote, literalLength]
    · rfl
    · intro t ht
      cases cs with
      | nil => cases ht
      | cons c cs =>
        have hc : c ≠ '\'' := by
          rintro rfl
          exact h cs rfl
        by_cases hn : c = '\n'
        · subst hn
          cases ht
        · rw [Text.crlf_cons hn] at ht
          exact hc (List.cons.inj ht).1
  | case5 c cs h₁ h₂ h₃ ih =>
    rw [Nat.add_comm 1, List.take_succ_cons]
    by_cases hn : c = '\n'
    · subst hn
      rw [Text.crlf_newline, Text.crlf_newline, literalLength_cons (by decide) (by decide),
        literalLength_cons (by decide) (by decide), ih]
      simp only [List.length_cons]
      omega
    · rw [Text.crlf_cons hn, Text.crlf_cons hn]
      by_cases hs : c = '\\'
      · obtain rfl : cs = [] := by
          cases cs with
          | nil => rfl
          | cons d cs => exact (h₁ d cs hs rfl).elim
        subst hs
        rfl
      · rw [literalLength_cons hs h₃, ih, List.length_cons, Nat.add_comm]

/-- A line feed, or a mark without line breaks. -/
def EndMark (mark : Text) : Prop := mark = ['\n'] ∨ mark ≠ [] ∧ '\r' ∉ mark ∧ '\n' ∉ mark

private theorem takesBreaks_lengthPast {mark : Text} (h : EndMark mark) (t : Text) :
    TakesBreaks (lengthPast mark) t := by
  unfold TakesBreaks
  induction t with
  | nil =>
    have hne : mark ≠ [] := by
      rcases h with rfl | h
      · exact List.cons_ne_nil _ _
      · exact h.1
    obtain ⟨d, mark, rfl⟩ := List.exists_cons_of_ne_nil hne
    rfl
  | cons c t ih =>
    rcases h with rfl | ⟨hne, hr, hn⟩
    · by_cases hc : c = '\n'
      · subst hc
        rw [Text.crlf_newline, lengthPast_cons_of_not_mem (List.cons_ne_nil _ _) (by decide)]
        rfl
      · have hmark : c ∉ ['\n'] := by simpa using hc
        rw [Text.crlf_cons hc, lengthPast_cons_of_not_mem (List.cons_ne_nil _ _) hmark,
          lengthPast_cons_of_not_mem (List.cons_ne_nil _ _) hmark, List.take_succ_cons,
          Text.crlf_cons hc, ih, List.length_cons]
    · by_cases hc : c = '\n'
      · subst hc
        rw [Text.crlf_newline, lengthPast_cons_of_not_mem hne hr, lengthPast_cons_of_not_mem hne hn,
          lengthPast_cons_of_not_mem hne hn, List.take_succ_cons, Text.crlf_newline, ih]
        rfl
      · have hsame := Text.isPrefixOf_crlf hr hn (c :: t)
        rw [Text.crlf_cons hc] at hsame ⊢
        rw [lengthPast_cons, lengthPast_cons, hsame]
        split
        · next hp =>
          obtain ⟨s, hs⟩ := List.isPrefixOf_iff_prefix.1 hp
          rw [← hs, List.take_left, Text.crlf_of_not_mem hn]
        · rw [List.take_succ_cons, Text.crlf_cons hc, ih, List.length_cons]

/-- The marks that open quoted names and comments have no line breaks. -/
theorem length_crlf_take {u : Text} (hu : '\n' ∉ u) (n : Nat) (t : Text) :
    (crlf ((u ++ t).take (u.length + n))).length = u.length + (crlf (t.take n)).length := by
  rw [List.take_length_add_append, Text.crlf_append, Text.crlf_of_not_mem hu, List.length_append]

private theorem takesBreaks_unitLength {c : Char} (hc : c ≠ '\n') (t : Text) :
    TakesBreaks unitLength (c :: t) := by
  have hmark : ∀ mark ∈ [['\x60'], ['\"'], ['\n'], ['*', '/']], EndMark mark := by
    simp only [EndMark]
    decide
  have hunit : ∀ (u : Text) (mark : Text) (s : Text), '\n' ∉ u →
      mark ∈ [['\x60'], ['\"'], ['\n'], ['*', '/']] →
      u.length + lengthPast mark (crlf s) =
        (crlf ((u ++ s).take (u.length + lengthPast mark s))).length := by
    intro u mark s hu hm
    rw [length_crlf_take hu, takesBreaks_lengthPast (hmark mark hm)]
  unfold TakesBreaks
  generalize hs : c :: t = s
  fun_cases unitLength s with
  | case1 s => exact hunit ['\x60'] ['\x60'] s (by decide) (by decide)
  | case2 s => exact hunit ['\"'] ['\"'] s (by decide) (by decide)
  | case3 s => exact hunit ['-', '-'] ['\n'] s (by decide) (by decide)
  | case4 s => exact hunit ['/', '*'] ['*', '/'] s (by decide) (by decide)
  | case5 s h₁ h₂ h₃ h₄ =>
    subst hs
    have hbegins : ∀ {u r : Text}, '\r' ∉ u → '\n' ∉ u → c :: crlf t = u ++ r →
        ∃ s, c :: t = u ++ s := by
      intro u r hr hn he
      rw [← Text.crlf_cons hc] at he
      obtain ⟨s, hs, -⟩ := Text.exists_of_crlf_eq_append hr hn he
      exact ⟨s, hs⟩
    rw [Text.crlf_cons hc, unitLength]
    · rw [List.take_succ_cons, List.take_zero, Text.crlf_cons hc]
      rfl
    · intro r he
      obtain ⟨s, hs⟩ := hbegins (u := ['\x60']) (by decide) (by decide) he
      exact h₁ s hs
    · intro r he
      obtain ⟨s, hs⟩ := hbegins (u := ['\"']) (by decide) (by decide) he
      exact h₂ s hs
    · intro r he
      obtain ⟨s, hs⟩ := hbegins (u := ['-', '-']) (by decide) (by decide) he
      exact h₃ s hs
    · intro r he
      obtain ⟨s, hs⟩ := hbegins (u := ['/', '*']) (by decide) (by decide) he
      exact h₄ s hs

private theorem takesBreaks_codeLength (t : Text) : TakesBreaks codeLength t := by
  induction hn : t.length using Nat.strongRecOn generalizing t with
  | ind n ih =>
    unfold TakesBreaks
    cases t with
    | nil => rw [List.take_nil, show crlf [] = [] from rfl, codeLength, List.length_nil]
    | cons c t =>
      by_cases hc : c = '\n'
      · subst hc
        have hrest : codeLength (crlf t) = _ := ih t.length (by simp [← hn]) t rfl
        have hone : ∀ {d : Char} (u : Text), d = '\r' ∨ d = '\n' →
            codeLength (d :: u) = 1 + codeLength u := by
          rintro d u (rfl | rfl) <;> rw [codeLength] <;> rfl
        rw [Text.crlf_newline, hone _ (.inl rfl), hone _ (.inr rfl), hone _ (.inr rfl),
          Nat.add_comm 1 (codeLength t), List.take_succ_cons, Text.crlf_newline, hrest]
        simp only [List.length_cons]
        omega
      by_cases hq : c = '\''
      · subst hq
        rw [Text.crlf_cons hc, codeLength, codeLength, if_pos rfl, if_pos rfl]
        rfl
      · have hunit := takesBreaks_unitLength hc t
        have hlen : ((c :: t).drop (unitLength (c :: t))).length < n := by
          have := unitLength_pos (c :: t)
          rw [List.length_drop, hn]
          rw [List.length_cons] at hn
          omega
        have hrest : codeLength (crlf ((c :: t).drop (unitLength (c :: t)))) = _ := ih _ hlen _ rfl
        rw [codeLength_cons hq t, List.take_add, Text.crlf_append, List.length_append, ← hrest,
          ← hunit.drop, ← hunit, Text.crlf_cons hc, ← codeLength_cons hq]

/-- The segments of a script are told apart whatever its line breaks are. -/
theorem split_crlf (t : Text) :
    split (crlf t) = (split t).map fun s => { s with text := crlf s.text } := by
  induction hn : t.length using Nat.strongRecOn generalizing t with
  | ind n ih =>
    have hcode := takesBreaks_codeLength t
    cases hrest : t.drop (codeLength t) with
    | nil =>
      rw [split_of_drop_nil hrest, split_of_drop_nil (hcode.drop.trans (by rw [hrest]; rfl)),
        hcode.take]
      rfl
    | cons c cs =>
      obtain rfl := eq_quote_of_drop hrest
      have hliteral := takesBreaks_literalLength cs
      have hlen : (cs.drop (literalLength cs)).length < n := by
        have := congrArg List.length hrest
        rw [List.length_drop, List.length_cons] at this
        rw [List.length_drop]
        omega
      have hquote : crlf ('\'' :: cs) = '\'' :: crlf cs := Text.crlf_cons (by decide) cs
      rw [split_of_drop_cons hrest,
        split_of_drop_cons (hcode.drop.trans (by rw [hrest, hquote])), hcode.take, hliteral.take,
        hliteral.drop, ih _ hlen _ rfl, List.map_cons, List.map_cons, Text.crlf_cons (by decide)]

end Segment

namespace Script

open Text (fold afterFolded? trimStart)

section
variable {w u t r : Text}

/-- A text without line breaks in any case. -/
def OneLine (w : Text) : Prop := '\r' ∉ fold w ∧ '\n' ∉ fold w

instance (w : Text) : Decidable (OneLine w) := inferInstanceAs (Decidable (_ ∧ _))

private theorem not_mem_of_fold (hw : OneLine w) (h : fold u = fold w) : '\r' ∉ u ∧ '\n' ∉ u := by
  have hfold : ∀ {c : Char}, Text.foldChar c = c → c ∉ fold w → c ∉ u := fun hc hn hm =>
    hn (h ▸ hc ▸ List.mem_map_of_mem hm)
  exact ⟨hfold (by decide) hw.1, hfold (by decide) hw.2⟩

private theorem afterFolded?_crlf (hw : OneLine w) (t : Text) :
    afterFolded? w (crlf t) = (afterFolded? w t).map crlf := by
  ext r
  rw [Text.afterFolded?_eq_some, Option.map_eq_some_iff]
  constructor
  · rintro ⟨u, he, hu⟩
    obtain ⟨hr, hn⟩ := not_mem_of_fold hw hu
    obtain ⟨s, rfl, rfl⟩ := Text.exists_of_crlf_eq_append hr hn he
    exact ⟨s, Text.afterFolded?_eq_some.2 ⟨u, rfl, hu⟩, rfl⟩
  · rintro ⟨s, hs, rfl⟩
    obtain ⟨u, rfl, hu⟩ := Text.afterFolded?_eq_some.1 hs
    exact ⟨u, by rw [Text.crlf_append, Text.crlf_of_not_mem (not_mem_of_fold hw hu).2], hu⟩

private theorem afterWords?_crlf {ws : List String} (hws : ∀ w ∈ ws, OneLine w.toList) (t : Text) :
    afterWords? ws (crlf t) = (afterWords? ws t).map crlf := by
  induction ws generalizing t with
  | nil => rfl
  | cons w ws ih =>
    obtain ⟨hw, hws⟩ := List.forall_mem_cons.1 hws
    cases ws with
    | nil => exact afterFolded?_crlf hw t
    | cons v ws =>
      rw [afterWords?_eq, afterWords?_eq, afterFolded?_crlf hw, Option.bind_map, Option.map_bind]
      refine congrArg _ (funext fun s => ?_)
      have hblank : (crlf s).head?.any Text.isBlank = s.head?.any Text.isBlank :=
        Text.head?_any_crlf (by decide) s
      rw [Function.comp_apply, Function.comp_apply, hblank, Text.trimStart_crlf, ih hws]
      split <;> rfl

/-- What follows words is the end of the text. -/
theorem exists_append_of_afterWords? {ws : List String} (h : afterWords? ws t = some r) :
    ∃ u, t = u ++ r := by
  induction ws generalizing t with
  | nil => exact ⟨[], Option.some.inj h⟩
  | cons w ws ih =>
    cases ws with
    | nil =>
      obtain ⟨u, hu, -⟩ := Text.afterFolded?_eq_some.1 h
      exact ⟨u, hu⟩
    | cons v ws =>
      obtain ⟨s, hs, -, hrest⟩ := afterWords?_cons_cons.1 h
      obtain ⟨u, rfl, -⟩ := Text.afterFolded?_eq_some.1 hs
      obtain ⟨x, hx⟩ := ih hrest
      obtain ⟨y, hy⟩ : ∃ y, s = y ++ trimStart s := (List.dropWhile_suffix _).imp fun _ h => h.symm
      exact ⟨u ++ (y ++ x), by rw [List.append_assoc, List.append_assoc, ← hx, ← hy]⟩

/-- A match is found in the text with carriage returns where it is found in the text without. -/
structure FindsBreaks (f : Option Char → Text → Option Nat) : Prop where
  found : ∀ b t, f b (crlf t) = (f b t).map fun n => (crlf (t.take n)).length
  /-- No match begins between a carriage return and its line feed. -/
  inner : ∀ b t, (∀ n, f b ('\n' :: t) ≠ some (n + 1)) →
    ∀ n, f (some '\r') ('\n' :: crlf t) ≠ some (n + 1)

private theorem replace_crlf {f : Option Char → Text → Option Nat} (hf : FindsBreaks f)
    {replacement : Text} (hr : '\n' ∉ replacement) (b : Option Char) (t : Text) :
    replace f replacement b (crlf t) = crlf (replace f replacement b t) := by
  induction hn : t.length using Nat.strongRecOn generalizing b t with
  | ind n ih =>
    cases t with
    | nil => simp [crlf, replace]
    | cons c t =>
      by_cases hm : ∃ n, f b (c :: t) = some (n + 1)
      · obtain ⟨m, hm⟩ := hm
        have hfound := hf.found b (c :: t)
        have htake : (c :: t).take (m + 1) ≠ [] := List.cons_ne_nil _ _
        obtain ⟨k, hk⟩ := Nat.exists_eq_add_of_le'
          (List.length_pos_iff.2 (Text.crlf_ne_nil htake))
        rw [hm, Option.map_some, hk] at hfound
        have hlen : ((c :: t).drop (m + 1)).length < n := by
          rw [List.length_drop, ← hn, List.length_cons]
          omega
        rw [replace_of_eq_some hfound (Text.crlf_ne_nil (List.cons_ne_nil c t)), ← hk,
          Text.take_crlf, Text.drop_crlf, Text.getLast?_crlf, ih _ hlen _ _ rfl,
          replace_of_eq_some hm (List.cons_ne_nil c t), Text.crlf_append,
          Text.crlf_of_not_mem hr]
      · have hnone : ∀ m, f b (c :: t) ≠ some (m + 1) := fun m h => hm ⟨m, h⟩
        have hrest := ih t.length (by simp [← hn]) (some c) t rfl
        have hmiss : ∀ m, f b (crlf (c :: t)) ≠ some (m + 1) := by
          intro m h
          rw [hf.found] at h
          obtain ⟨k, hk, hlen⟩ := Option.map_eq_some_iff.1 h
          cases k with
          | zero => cases hlen
          | succ k => exact hnone k hk
        rw [replace_of_none hnone]
        by_cases hc : c = '\n'
        · subst hc
          rw [Text.crlf_newline] at hmiss ⊢
          rw [replace_of_none hmiss, replace_of_none (hf.inner b t hnone), hrest, Text.crlf_newline]
        · rw [Text.crlf_cons hc] at hmiss ⊢
          rw [replace_of_none hmiss, hrest, Text.crlf_cons hc]

/-- No word begins with a line break. -/
theorem afterWords?_newline {w : String} {ws : List String} (hw : OneLine w.toList)
    (hne : w.toList ≠ []) (t : Text) : afterWords? (w :: ws) ('\n' :: t) = none := by
  rw [Option.eq_none_iff_forall_ne_some]
  intro r h
  obtain ⟨s, hs⟩ := exists_of_afterWords? h
  obtain ⟨u, he, hu⟩ := Text.afterFolded?_eq_some.1 hs
  cases u with
  | nil => exact hne (List.map_eq_nil_iff.1 hu.symm)
  | cons c u =>
    obtain ⟨rfl, -⟩ := List.cons.inj he
    exact (not_mem_of_fold hw hu).2 List.mem_cons_self

private theorem length_sub_append (u r : Text) : (u ++ r).length - r.length = u.length := by
  rw [List.length_append, Nat.add_sub_cancel]

private theorem findsBreaks_phraseLength? {w : String} {ws : List String}
    (hws : ∀ v ∈ w :: ws, OneLine v.toList) (hne : w.toList ≠ []) :
    FindsBreaks (phraseLength? (w :: ws)) where
  found b t := by
    rw [phraseLength?, phraseLength?]
    split
    · rfl
    · rw [afterWords?_crlf hws]
      cases hr : afterWords? (w :: ws) t with
      | none => rfl
      | some r =>
        have hpart : (crlf r).head?.any Text.isWordPart = r.head?.any Text.isWordPart :=
          Text.head?_any_crlf (by decide) r
        obtain ⟨u, rfl⟩ := exists_append_of_afterWords? hr
        simp only [Option.map_some, hpart]
        split
        · rfl
        · rw [length_sub_append, Text.crlf_append, length_sub_append, Option.map_some,
            List.take_left]
  inner b t _ m h := by
    obtain ⟨-, s, hs, -⟩ := phraseLength?_eq_some h
    rw [afterWords?_newline (hws w List.mem_cons_self) hne] at hs
    cases hs

private theorem findsBreaks_collationLength? : FindsBreaks collationLength? where
  found b t := by
    have hblank : (crlf t).head?.any Text.isBlank = t.head?.any Text.isBlank :=
      Text.head?_any_crlf (by decide) t
    rw [collationLength?, collationLength?, hblank]
    split
    · rfl
    · rw [Text.trimStart_crlf, afterWords?_crlf (by decide), Option.map_map, Option.map_map]
      cases hr : afterWords? ["COLLATE", "pg_catalog.\"default\""] (trimStart t) with
      | none => rfl
      | some r =>
        obtain ⟨u, hu⟩ := exists_append_of_afterWords? hr
        obtain ⟨v, hv⟩ : ∃ v, t = v ++ trimStart t :=
          (List.dropWhile_suffix _).imp fun _ h => h.symm
        rw [hu, ← List.append_assoc] at hv
        subst hv
        simp only [Option.map_some, Function.comp_apply]
        rw [length_sub_append, Text.crlf_append, length_sub_append, List.take_left]
  inner b t hnone m h := by
    obtain ⟨-, s, hs, -⟩ := collationLength?_eq_some h
    have htrim : trimStart ('\n' :: crlf t) = crlf (trimStart t) :=
      Text.trimStart_crlf t
    rw [htrim, afterWords?_crlf (by decide)] at hs
    obtain ⟨r, hr, -⟩ := Option.map_eq_some_iff.1 hs
    -- the line feed is a blank in front of the collation, so the match begins there
    obtain ⟨u, hu⟩ := exists_append_of_afterWords? hr
    have hle : r.length ≤ t.length := by
      have h₁ := congrArg List.length hu
      have h₂ : (trimStart t).length ≤ t.length := (List.dropWhile_sublist _).length_le
      rw [List.length_append] at h₁
      omega
    have hfound : collationLength? b ('\n' :: t) = some (t.length + 1 - r.length) := by
      have hhead : ('\n' :: t).head?.any Text.isBlank = true := rfl
      have hstart : trimStart ('\n' :: t) = trimStart t := rfl
      rw [collationLength?, hhead, hstart, hr, Bool.not_true, Bool.and_false]
      rfl
    rw [Nat.succ_sub hle] at hfound
    exact hnone _ hfound

private theorem prepareCode_crlf (t : Text) : prepareCode (crlf t) = crlf (prepareCode t) := by
  have hphrase : ∀ (w : String) (ws : List String) (replacement : Text),
      (∀ v ∈ w :: ws, OneLine v.toList) → w.toList ≠ [] → '\n' ∉ replacement → ∀ t,
      replacePhrase (w :: ws) replacement (crlf t) = crlf (replacePhrase (w :: ws) replacement t) :=
    fun w ws _ hws hne hr t => replace_crlf (findsBreaks_phraseLength? hws hne) hr none t
  simp only [prepareCode]
  rw [Text.filter_crlf (by decide) (by decide),
    hphrase "timestamp" ["with", "time", "zone"] _ (by decide) (by decide) (by decide),
    hphrase "timestamp" ["without", "time", "zone"] _ (by decide) (by decide) (by decide),
    hphrase "character" ["varying"] _ (by decide) (by decide) (by decide),
    replace_crlf findsBreaks_collationLength? (by decide)]

theorem prepare_crlf (s : Text) : prepare (crlf s) = crlf (prepare s) := by
  have hflat : ∀ (f : Segment → Text) (ss : List Segment),
      crlf (ss.flatMap f) = ss.flatMap fun s => crlf (f s) := fun f ss => List.flatMap_assoc
  rw [prepare, Segment.split_crlf, List.flatMap_map, prepare, hflat]
  refine congrArg (List.flatMap · _) (funext fun x => ?_)
  dsimp only
  split
  · rfl
  · exact prepareCode_crlf x.text

private theorem mem_replace {f : Option Char → Text → Option Nat} {replacement t : Text}
    {b : Option Char} {c : Char} (h : c ∈ replace f replacement b t) :
    c ∈ replacement ∨ c ∈ t := by
  fun_induction replace f replacement b t with
  | case1 => cases h
  | case2 b d cs n _ ih =>
    rcases List.mem_append.1 h with h | h
    · exact .inl h
    · exact (ih h).imp id fun h => List.mem_cons_of_mem d (List.mem_of_mem_drop h)
  | case3 b d cs _ ih =>
    rcases List.mem_cons.1 h with rfl | h
    · exact .inr List.mem_cons_self
    · exact (ih h).imp id (List.mem_cons_of_mem d)

private theorem not_mem_prepareCode {c : Char} {code : Text} (h : c ∉ code)
    (hnew : c ∉ "timestamptz".toList ∧ c ∉ "timestamp".toList ∧ c ∉ "varchar".toList) :
    c ∉ prepareCode code := by
  intro hm
  have hold := (mem_replace hm).resolve_left List.not_mem_nil
  have hold := (mem_replace hold).resolve_left hnew.2.2
  have hold := (mem_replace hold).resolve_left hnew.2.1
  have hold := (mem_replace hold).resolve_left hnew.1
  exact h (List.mem_of_mem_filter hold)

theorem not_mem_prepare {s : Text} (h : '\r' ∉ s) : '\r' ∉ prepare s := by
  intro hm
  obtain ⟨x, hx, hm⟩ := List.mem_flatMap.1 hm
  have htext : '\r' ∉ x.text := fun hr => h (by
    rw [← Segment.source_split s]
    exact List.mem_flatMap.2 ⟨x, hx, hr⟩)
  split at hm
  · exact htext hm
  · exact not_mem_prepareCode htext (by decide) hm

private theorem lineFeeds_crlf {t : Text} (h : '\r' ∉ t) : Statement.lineFeeds (crlf t) = t := by
  induction t with
  | nil => rfl
  | cons c t ih =>
    simp only [List.mem_cons, not_or] at h
    by_cases hn : c = '\n'
    · subst hn
      rw [Text.crlf_newline, Statement.lineFeeds, ih h.2]
    · rw [Text.crlf_cons hn, Statement.lineFeeds, ih h.2]
      · exact fun _ he _ => h.1 he.symm
      · exact fun he => h.1 he.symm

theorem split_crlf {t : Text} (h : '\r' ∉ t) : Statement.split (crlf t) = Statement.split t := by
  rw [Statement.split, Statement.lines, lineFeeds_crlf h, Statement.split, Statement.lines,
    Statement.lineFeeds_of_not_mem h]

private theorem report_crlf {s : Text} (h : '\r' ∉ s) : report (crlf s) = report s := by
  rw [report, Report.ofScript, prepare_crlf, split_crlf (not_mem_prepare h)]
  rfl

/-- A script whose lines end with a carriage return and a line feed is converted as the script
whose lines end with the line feed alone, and its report is the same. -/
theorem convert_crlf {s : Text} (h : '\r' ∉ s) (d : Dialect) (l : Layout) :
    convert d l (crlf s) = convert d l s ∧ report (crlf s) = report s :=
  ⟨by rw [convert, report_crlf h, convert], report_crlf h⟩

/-- Line breaks within a type name, before a collation, in a literal and behind a backslash. -/
theorem convert_crlf_phrases :
    let s : Text := "CREATE TABLE t (\n  a timestamp\nwith time\n\nzone, -- don't\n  b TEXT\n" ++
      "COLLATE pg_catalog.\"default\" DEFAULT 'x\n\\\ny'\n);\n".toList
    '\r' ∉ s ∧ convert .postgres {} (crlf s) = ("CREATE TABLE \"t\" (\r\n" ++
        "    \"a\" TIMESTAMP WITH TIME ZONE NULL,\r\n" ++
        "    \"b\" TEXT NULL DEFAULT 'x\n\ny'\r\n);").toList ∧
      (report (crlf s)).diagnostics = [] := by
  intro s
  have hs : '\r' ∉ s := by decide +kernel
  obtain ⟨hconvert, hreport⟩ := convert_crlf hs .postgres {}
  rw [hconvert, hreport]
  exact ⟨hs, by decide +kernel, by decide +kernel⟩

end

end Script

end TableDialects
