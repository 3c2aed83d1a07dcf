import TableDialects.Proofs.DefaultValue.Update
import Mathlib.Data.List.Induction

/-!
# Casts after a literal

The casts at the end of a literal are taken off again whatever the literal holds, and nothing but the
end of a value is: no cast is left there. The normal form of a literal with casts is not that of the
literal: it has a space for each run of blanks, also of those inside the quotes.
-/
namespace TableDialects

namespace DefaultValue

/-- Casts to types, given by their names. -/
def casts (names : List Text) : Text := names.flatMap fun n => ':' :: ':' :: n

/-- A name after a cast that ends where the next one begins. -/
structure IsCastName (n : Text) : Prop where
  no_quote : '\'' ∉ n
  no_colon : ':' ∉ n
  balanced : closesGroup 0 n = false

section
variable {n : Text}

private theorem casts_cons (n : Text) (ns : List Text) :
    casts (n :: ns) = ':' :: ':' :: (n ++ casts ns) :=
  rfl

theorem casts_concat (ns : List Text) (n : Text) :
    casts (ns ++ [n]) = casts ns ++ ':' :: ':' :: n := by
  simp [casts]

private theorem lastCast?_append (hq : '\'' ∉ n) (hc : ':' ∉ n) (r : Text) :
    lastCast? false (n ++ r) = (lastCast? false r).map fun p => (n ++ p.1, p.2) := by
  induction n with
  | nil => simp
  | cons c n ih =>
    rw [List.mem_cons, not_or] at hq hc
    rw [List.cons_append, lastCast?.eq_4, ih hq.2 hc.2, Option.map_map]
    · rfl
    · exact fun he => hq.1 he.symm
    · exact fun _ he _ => hc.1 he.symm

/-- The last cast is the last one written. -/
theorem lastCast?_casts {ns : List Text} (hns : ∀ m ∈ ns, IsCastName m) (hn : IsCastName n) :
    lastCast? false (casts ns ++ ':' :: ':' :: n) = some (casts ns, n) := by
  induction ns with
  | nil =>
    have hnone : lastCast? false n = none := by
      have h := lastCast?_append hn.no_quote hn.no_colon []
      rwa [List.append_nil] at h
    rw [casts, List.flatMap_nil, List.nil_append, lastCast?, hnone]
    rfl
  | cons m ns ih =>
    obtain ⟨hm, hns⟩ := List.forall_mem_cons.1 hns
    rw [casts_cons, List.cons_append, List.cons_append, List.append_assoc, lastCast?,
      lastCast?_append hm.no_quote hm.no_colon, ih hns]
    rfl

private theorem closesGroup_of_prefix {d : Nat} {u v : Text} (h : closesGroup d (u ++ v) = false) :
    closesGroup d u = false := by
  induction u generalizing d with
  | nil => rfl
  | cons c u ih =>
    rw [List.cons_append] at h
    unfold closesGroup at h ⊢
    split <;> simp_all

/-- Blanks at the end of a name do not count. -/
theorem IsCastName.trimEnd (h : IsCastName n) : IsCastName (Text.trimEnd n) := by
  obtain ⟨b, hb, -⟩ := Text.exists_trimEnd n
  have hbalanced := h.balanced
  rw [hb] at hbalanced
  exact ⟨fun hc => h.no_quote (Text.mem_of_mem_trimEnd hc),
    fun hc => h.no_colon (Text.mem_of_mem_trimEnd hc), closesGroup_of_prefix hbalanced⟩

theorem trimEnd_casts (u : Text) (ns : List Text) (n : Text) :
    Text.trimEnd (u ++ casts (ns ++ [n])) = u ++ casts (ns ++ [Text.trimEnd n]) := by
  have hcolon : Text.isBlank ':' = false := by decide
  rw [casts_concat, casts_concat, ← List.append_assoc, ← List.append_assoc,
    Text.trimEnd_append_cons hcolon, Text.trimEnd_cons hcolon]

/-- The casts after a literal are taken off one by one. -/
theorem withoutCasts_casts (s : Text) {ns : List Text} (h : ∀ n ∈ ns, IsCastName n) :
    withoutCasts (Text.trimEnd (quoteLiteral s ++ casts ns)) = quoteLiteral s := by
  -- the last cast is taken off first, so the induction is from the end
  induction ns using List.reverseRecOn with
  | nil =>
    have htrim : Text.trimEnd (quoteLiteral s) = quoteLiteral s :=
      Text.trimEnd_concat (by decide) ('\'' :: Text.doubled '\'' s)
    rw [casts, List.flatMap_nil, List.append_nil, htrim, DefaultPhrase.withoutCasts_quoteLiteral]
  | append_singleton ns n ih =>
    rw [List.forall_mem_append, List.forall_mem_singleton] at h
    have hlast : lastCast? false (quoteLiteral s ++ casts (ns ++ [Text.trimEnd n])) =
        some (quoteLiteral s ++ casts ns, Text.trimEnd n) := by
      rw [casts_concat, DefaultPhrase.lastCast?_quoteLiteral_append, lastCast?_casts h.1 h.2.trimEnd]
      rfl
    rw [trimEnd_casts, withoutCasts]
    split
    · next he => exact absurd he (by simp [hlast])
    · next p he =>
      obtain rfl := Option.some.inj (hlast.symm.trans he)
      rw [if_neg (by simp [h.2.trimEnd.balanced]), ih h.1]

private theorem trim_quoteLiteral_append (s t : Text) :
    Text.trim (quoteLiteral s ++ t) = Text.trimEnd (quoteLiteral s ++ t) :=
  congrArg Text.trimEnd (Text.trimStart_cons rfl _)

private theorem stripCasts_quoteLiteral (s : Text) {ns : List Text} (h : ∀ n ∈ ns, IsCastName n) :
    stripCasts (quoteLiteral s ++ casts ns) = quoteLiteral s := by
  rw [stripCasts, trim_quoteLiteral_append, withoutCasts_casts s h]

end

/-- An ASCII letter or a space. -/
def isNameLetter (c : Char) : Bool := c.isAlpha || c == ' '

/-- Letters and spaces, and at most one number in parentheses. -/
inductive SpellsType : Text → Prop
  | words {n : Text} (h : ∀ c ∈ n, isNameLetter c = true) : SpellsType n
  | number {a digits b : Text} (h : ∀ c ∈ a ++ b, isNameLetter c = true)
      (hd : ∀ c ∈ digits, c.isDigit = true) : SpellsType (a ++ '(' :: (digits ++ ')' :: b))

/-- The name of a type, with no two spaces together. -/
structure IsTypeName (n : Text) : Prop where
  spelled : SpellsType n
  single : Text.holds "  " n = false

private theorem closesGroup_append {p : Char → Bool} (hp : p '(' = false ∧ p ')' = false) {u : Text}
    (h : ∀ c ∈ u, p c = true) (d : Nat) (r : Text) :
    closesGroup d (u ++ r) = closesGroup d r := by
  induction u with
  | nil => rfl
  | cons c u ih =>
    obtain ⟨hc, hu⟩ := List.forall_mem_cons.1 h
    have hne : c ≠ '(' ∧ c ≠ ')' := by
      constructor <;> rintro rfl <;> simp [hp] at hc
    rw [List.cons_append, closesGroup.eq_4 _ _ _ hne.1 hne.2, ih hu]

namespace IsTypeName

variable {n : Text}

private theorem mem (h : IsTypeName n) : ∀ c ∈ n, c.isAlphanum = true ∨ c ∈ [' ', '(', ')'] := by
  have hletter : ∀ c, isNameLetter c = true → c.isAlphanum = true ∨ c ∈ [' ', '(', ')'] :=
    fun c hc => (Bool.or_eq_true_iff.1 hc).imp (fun ha => by simp [Char.isAlphanum, ha])
      fun he => by simp [eq_of_beq he]
  cases h.spelled with
  | words hn => exact fun c hc => hletter c (hn c hc)
  | number hn hd =>
    rw [List.forall_mem_append] at hn
    simp only [List.forall_mem_append, List.forall_mem_cons]
    exact ⟨fun c hc => hletter c (hn.1 c hc), .inr (by decide),
      fun c hc => .inl (by simp [Char.isAlphanum, hd c hc]), .inr (by decide),
      fun c hc => hletter c (hn.2 c hc)⟩

private theorem not_mem (h : IsTypeName n) {c : Char} (hc : c.isAlphanum = false)
    (hne : c ∉ [' ', '(', ')']) : c ∉ n := fun hm => by
  rcases h.mem c hm with ha | hs
  · simp [hc] at ha
  · exact hne hs

private theorem isQuote (h : IsTypeName n) : ∀ c ∈ n, Token.isQuote c = false := by
  intro c hc
  by_contra hq
  simp only [Token.isQuote, Bool.not_eq_false, Bool.or_eq_true, beq_iff_eq] at hq
  rcases hq with (rfl | rfl) | rfl <;> exact h.not_mem (by decide) (by decide) hc

private theorem balanced (h : IsTypeName n) : closesGroup 0 n = false := by
  have hletter : isNameLetter '(' = false ∧ isNameLetter ')' = false := by decide
  have hwords {u : Text} (hu : ∀ c ∈ u, isNameLetter c = true) : closesGroup 0 u = false := by
    have h := closesGroup_append hletter hu 0 []
    rwa [List.append_nil] at h
  cases h.spelled with
  | words hn => exact hwords hn
  | number hn hd =>
    rw [List.forall_mem_append] at hn
    rw [closesGroup_append hletter hn.1, closesGroup,
      closesGroup_append (p := Char.isDigit) (by decide) hd]
    exact hwords hn.2

private theorem isCastName (h : IsTypeName n) : IsCastName n :=
  ⟨h.not_mem (by decide) (by decide), h.not_mem (by decide) (by decide), h.balanced⟩

private theorem squeezed (h : IsTypeName n) : Text.squeezed n = n := by
  have hblank : ∀ m ∈ Text.blanks, (Char.ofNat m).isAlphanum = false ∧ Char.ofNat m ≠ '(' ∧
    Char.ofNat m ≠ ')' := by decide
  refine (Text.squeezed_eq_self_iff n).2 ⟨fun c hc hb => ?_, h.single⟩
  have hc' := hblank c.toNat (Text.mem_blanks hb)
  rw [Char.ofNat_toNat] at hc'
  simpa [hc'] using h.mem c hc

end IsTypeName

section
variable {s : Text} {ns : List Text}

private theorem squeezed_quoteLiteral (s : Text) :
    Text.squeezed (quoteLiteral s) = quoteLiteral (Text.squeezed s) := by
  have hq : Text.isBlank '\'' = false := by decide
  rw [quoteLiteral, Text.enclosed, Text.squeezed_cons hq, Text.squeezed_append _ rfl,
    Text.squeezed_doubled hq]
  rfl

private theorem squeezed_casts (h : ∀ n ∈ ns, IsTypeName n) :
    Text.squeezed (casts ns) = casts ns := by
  have hcolon : Text.isBlank ':' = false := by decide
  induction ns with
  | nil => rfl
  | cons n ns ih =>
    obtain ⟨hn, hns⟩ := List.forall_mem_cons.1 h
    have hhead : (casts ns).head?.any Text.isBlank = false := by cases ns <;> rfl
    rw [casts_cons, Text.squeezed_cons hcolon, Text.squeezed_cons hcolon,
      Text.squeezed_append n hhead, hn.squeezed, ih hns]

/-- The casts keep their blanks, and the literal does not. -/
theorem collapsed_casts (h : ∀ n ∈ ns, IsTypeName n) :
    Text.collapsed (quoteLiteral s ++ casts ns) =
      Text.trimEnd (quoteLiteral (Text.squeezed s) ++ casts ns) := by
  have hq : Text.isBlank '\'' = false := by decide
  have hhead : (casts ns).head?.any Text.isBlank = false := by cases ns <;> rfl
  have hcollapsed := Text.collapsed_eq_trimEnd hq (Text.doubled '\'' s ++ ['\''] ++ casts ns)
  rw [← Text.trimEnd_cons hq, ← Text.squeezed_cons hq] at hcollapsed
  rw [← squeezed_quoteLiteral, ← squeezed_casts h, ← Text.squeezed_append _ hhead,
    squeezed_casts h]
  exact hcollapsed

/-- A literal with casts is not one literal. -/
theorem literal?_casts {n : Text} (h : IsTypeName n) :
    literal? (Text.trim (quoteLiteral s ++ casts (ns ++ [n]))) = none := by
  have hquote : ∀ c ∈ ':' :: ':' :: Text.trimEnd n, Token.isQuote c = false := by
    have hcolon : Token.isQuote ':' = false := by decide
    have hname : ∀ c ∈ Text.trimEnd n, Token.isQuote c = false := fun c hc =>
      h.isQuote c (Text.mem_of_mem_trimEnd hc)
    simpa [hcolon] using hname
  refine literal?_eq_none_of_getLast? fun c hc => hquote c (List.mem_of_getLast? ?_)
  rwa [trim_quoteLiteral_append, trimEnd_casts, casts_concat, ← List.append_assoc,
    List.getLast?_append_of_ne_nil _ (by simp)] at hc

/-- The casts are taken off the normal form of a literal with casts, and what is left has a space
for each run of blanks in the literal. It is the literal, which is in normal form without the casts,
only if the blanks in it are spaces that stand alone. -/
theorem stripCasts_normalize_iff (hs : '\\' ∉ s) (hne : ns ≠ [])
    (hns : ∀ n ∈ ns, IsTypeName n) :
    normalize (quoteLiteral s) = some (quoteLiteral s) ∧
      ∃ u, normalize (quoteLiteral s ++ casts ns) = some u ∧
        stripCasts u = quoteLiteral (Text.squeezed s) ∧
        (stripCasts u = quoteLiteral s ↔
          (∀ c ∈ s, Text.isBlank c = true → c = ' ') ∧ Text.holds "  " s = false) := by
  obtain ⟨ns, n, rfl⟩ := (List.eq_nil_or_concat' ns).resolve_left hne
  have hnormal : normalize (quoteLiteral s ++ casts (ns ++ [n])) =
      some (quoteLiteral (Text.squeezed s) ++ casts (ns ++ [Text.trimEnd n])) := by
    rw [DefaultPhrase.normalize_quote rfl, literal?_casts (hns n (by simp)), collapsed_casts hns,
      trimEnd_casts]
    rfl
  have hstrip : stripCasts (quoteLiteral (Text.squeezed s) ++ casts (ns ++ [Text.trimEnd n])) =
      quoteLiteral (Text.squeezed s) := by
    rw [List.forall_mem_append, List.forall_mem_singleton] at hns
    refine stripCasts_quoteLiteral _ (List.forall_mem_append.2 ⟨fun m hm => ?_, ?_⟩)
    · exact (hns.1 m hm).isCastName
    · exact List.forall_mem_singleton.2 hns.2.isCastName.trimEnd
  refine ⟨DefaultPhrase.normalize_quoteLiteral hs, _, hnormal, hstrip, ?_⟩
  rw [hstrip, ← Text.squeezed_eq_self_iff]
  refine ⟨fun he => ?_, fun he => by rw [he]⟩
  rw [quoteLiteral, quoteLiteral, Text.enclosed, Text.enclosed, List.cons.injEq,
    List.append_cancel_right_eq] at he
  exact Text.doubled_injective '\'' he.2

/-- Quotes, colons and parentheses in a literal are kept, and both casts are taken off. -/
theorem stripCasts_normalize_iff_varying :
    ∃ u, normalize "'it''s (a::b'::character varying(10)::text" = some u ∧
      stripCasts u = "'it''s (a::b'".toList := by
  have hvarying : IsTypeName "character varying(10)" :=
    ⟨@SpellsType.number "character varying".toList "10".toList [] (List.all_eq_true.1 (by decide))
      (List.all_eq_true.1 (by decide)), by decide⟩
  have htext : IsTypeName "text" := ⟨.words (List.all_eq_true.1 (by decide)), by decide⟩
  obtain ⟨-, u, hu, -, hsame⟩ := @stripCasts_normalize_iff "it's (a::b".toList
    ["character varying(10)".toList, "text".toList] (by decide) (by simp)
    (List.forall_mem_cons.2 ⟨hvarying, List.forall_mem_singleton.2 htext⟩)
  exact ⟨u, hu, hsame.2 ((Text.squeezed_eq_self_iff _).1 (by decide))⟩

/-- Two spaces in a literal become one when a cast follows it. -/
theorem stripCasts_normalize_spaces :
    normalize "'a  b'" = some "'a  b'".toList ∧
      (normalize "'a  b'::text").map stripCasts = some "'a b'".toList := by
  decide +kernel

end

section
variable {t : Text}

/-- A text closes no parenthesis that it did not open exactly if none of its beginnings closes more
of them than it opens. -/
theorem closesGroup_eq_false_iff {d : Nat} :
    closesGroup d t = false ↔ ∀ u, u <+: t → u.count ')' ≤ u.count '(' + d := by
  induction t generalizing d with
  | nil =>
    refine iff_of_true rfl fun u hu => ?_
    rw [List.prefix_nil.1 hu]
    exact Nat.zero_le _
  | cons c t ih =>
    have hcons : (∀ u, u <+: c :: t → u.count ')' ≤ u.count '(' + d) ↔
        ∀ u, u <+: t → (c :: u).count ')' ≤ (c :: u).count '(' + d := by
      refine ⟨fun h u hu => h _ (List.cons_prefix_cons.2 ⟨rfl, hu⟩), fun h u hu => ?_⟩
      rcases List.prefix_cons_iff.1 hu with rfl | ⟨v, rfl, hv⟩
      · exact Nat.zero_le _
      · exact h v hv
    rw [hcons]
    by_cases hopen : c = '('
    · subst hopen
      rw [closesGroup, ih]
      simp [Nat.add_right_comm, Nat.add_assoc]
    by_cases hclose : c = ')'
    · subst hclose
      cases d with
      | zero =>
        refine iff_of_false (by simp [closesGroup]) fun h => ?_
        have := h [] List.nil_prefix
        simp at this
      | succ d =>
        rw [closesGroup, if_neg d.succ_ne_zero, Nat.add_sub_cancel, ih]
        simp [← Nat.add_assoc]
    · rw [closesGroup.eq_4 _ _ _ hopen hclose, ih]
      simp [hopen, hclose]

private theorem eq_append_of_lastCast? {inQuote : Bool} {p : Text × Text}
    (h : lastCast? inQuote t = some p) : t = p.1 ++ ':' :: ':' :: p.2 := by
  fun_induction lastCast? inQuote t generalizing p with
  | case1 => cases h
  | case2 _ cs ih | case3 cs ih | case6 _ c cs _ _ ih =>
    obtain ⟨q, hq, rfl⟩ := Option.map_eq_some_iff.1 h
    rw [ih hq]
    rfl
  | case4 _ cs _ q hq ih =>
    cases h
    rw [ih hq]
    rfl
  | case5 =>
    cases h
    rfl

/-- Casts are taken off the end, so what is left begins the value. -/
theorem isPrefix_withoutCasts (t : Text) : withoutCasts t <+: t := by
  fun_induction withoutCasts t with
  | case1 => exact List.prefix_refl _
  | case2 => exact List.prefix_refl _
  | case3 t p hp _ ih =>
    obtain ⟨b, hb, -⟩ := Text.exists_trimEnd p.1
    have hcast := eq_append_of_lastCast? hp
    exact ih.trans (List.IsPrefix.trans ⟨b, hb.symm⟩ ⟨_, hcast.symm⟩)

private theorem withoutCasts_eq_self (h : ∀ p ∈ lastCast? false t, closesGroup 0 p.2 = true) :
    withoutCasts t = t := by
  rw [withoutCasts]
  split
  · rfl
  · next p hp => rw [if_pos (h p hp)]

/-- The last cast that is left stands inside a group. -/
theorem closesGroup_of_withoutCasts (t : Text) :
    ∀ p ∈ lastCast? false (withoutCasts t), closesGroup 0 p.2 = true := by
  fun_induction withoutCasts t with
  | case1 t hnone => simp [hnone]
  | case2 t p hp hclose => simpa [hp] using hclose
  | case3 t p hp _ ih => exact ih

private theorem trimEnd_withoutCasts (h : Text.trimEnd t = t) :
    Text.trimEnd (withoutCasts t) = withoutCasts t := by
  fun_induction withoutCasts t with
  | case1 => exact h
  | case2 => exact h
  | case3 t p hp _ ih => exact ih (Text.trimEnd_trimEnd p.1)

private theorem trim_stripCasts (v : Text) : Text.trim (stripCasts v) = stripCasts v := by
  cases hb : Text.blank v with
  | true =>
    rw [stripCasts, Text.trim_of_blank hb, List.prefix_nil.1 (isPrefix_withoutCasts [])]
    rfl
  | false =>
    have hsolid := Text.solid_trim hb
    have hend : Text.trimEnd (stripCasts v) = stripCasts v :=
      trimEnd_withoutCasts (Text.trimEnd_trimEnd _)
    obtain ⟨c, t, ht, hc⟩ := hsolid.exists_cons
    have hprefix : stripCasts v <+: c :: t := ht ▸ isPrefix_withoutCasts (Text.trim v)
    rcases List.prefix_cons_iff.1 hprefix with he | ⟨u, he, -⟩
    · rw [he]
      rfl
    · rw [Text.trim, he, Text.trimStart_cons hc, ← he, hend]

end

end DefaultValue

end TableDialects
