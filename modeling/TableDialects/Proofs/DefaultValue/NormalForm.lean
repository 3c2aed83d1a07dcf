import TableDialects.Proofs.DefaultValue.Update

/-!
# Values in normal form

A value in normal form is a literal, or a text with its blanks collapsed that none of the rules
changes. The normal form of any value without a backslash is one of the two, so that nothing changes
when it is normalized again.
-/
namespace TableDialects

namespace Token.Quotes

variable {q : Char} {s v : Text}

private theorem mem_of_mem (h : Quotes q v s) {c : Char} (hc : c ∈ v) : c ∈ s := by
  induction h with
  | close => simp at hc
  | escape a d _ _ ih | plain a _ _ _ ih =>
    rcases List.mem_cons.1 hc with rfl | hc
    · simp
    · simp [ih hc]
  | twice _ ih =>
    rcases List.mem_cons.1 hc with rfl | hc
    · simp
    · simp [ih hc]

private theorem exists_tail {c : Char} (hc : c ≠ q) (he : escapes q c = false)
    (h : Quotes q v (c :: s)) : ∃ w, Quotes q w s := by
  generalize ht : c :: s = t at h
  cases h with
  | close | twice => exact absurd (List.cons.inj ht).1 hc
  | escape a _ ha =>
    obtain rfl := (List.cons.inj ht).1
    simp [he] at ha
  | plain a _ _ h => exact ⟨_, (List.cons.inj ht).2 ▸ h⟩

/-- Without a backslash blanks bear on no quote, so a literal may be read before they are squeezed
as well as after. -/
theorem exists_of_squeezed (hq : Text.isBlank q = false) (hs : '\\' ∉ s)
    (h : Quotes q v (Text.squeezed s)) : ∃ u, Quotes q u s := by
  -- two quotes are read at once, so the induction is on the length
  induction hn : s.length using Nat.strongRecOn generalizing s v with
  | ind n ih =>
    subst hn
    cases s with
    | nil => cases h
    | cons c t =>
      rw [List.mem_cons, not_or] at hs
      by_cases hc : c = q
      · subst hc
        rw [Text.squeezed_cons hq] at h
        generalize hw : c :: Text.squeezed t = w at h
        cases h with
        | close =>
          rw [Text.squeezed_eq_nil (List.cons.inj hw).2]
          exact ⟨[], .close⟩
        | @twice v s h =>
          obtain ⟨-, htail⟩ := List.cons.inj hw
          obtain ⟨t, rfl, rfl⟩ := Text.exists_of_squeezed (a := [c]) (by simpa using hq) htail
          rw [List.singleton_append, List.mem_cons, not_or] at hs
          have hlt : t.length < (c :: ([c] ++ t)).length :=
            Nat.lt_of_succ_lt (Nat.lt_succ_self (t.length + 1))
          obtain ⟨u, hu⟩ := @ih t.length hlt t v hs.2.2 h rfl
          exact ⟨c :: u, .twice hu⟩
        | escape a _ ha =>
          obtain rfl := (List.cons.inj hw).1
          simp [escapes, Ne.symm hs.1] at ha
        | plain a _ ha => exact absurd (List.cons.inj hw).1.symm ha
      · have hplain : escapes q c = false := by simp [escapes, Ne.symm hs.1]
        obtain ⟨w, hw⟩ : ∃ w, Quotes q w (Text.squeezed t) := by
          cases hblank : Text.isBlank c with
          | false =>
            rw [Text.squeezed_cons hblank] at h
            exact h.exists_tail hc hplain
          | true =>
            cases hhead : t.head?.any Text.isBlank with
            | true => exact ⟨v, Text.squeezed_blank_cons hblank hhead ▸ h⟩
            | false =>
              have hspace : ' ' ≠ q := by
                rintro rfl
                cases hq
              rw [Text.squeezed_blank hblank hhead] at h
              exact h.exists_tail hspace (by simp [escapes])
        obtain ⟨u, hu⟩ := @ih t.length (by simp) t w hs.2 hw rfl
        exact ⟨c :: u, .plain c hplain hc hu⟩

end Token.Quotes

namespace DefaultValue

variable {t r raw v : Text}

private theorem introduced?_eq_some_iff : introduced? t = some r ↔ ∃ name, t = '_' :: (name ++ r) ∧
    name ≠ [] ∧ (∀ c ∈ name, (Text.foldChar c).isAlphanum = true) ∧ r.head? = some '\'' := by
  constructor
  · intro h
    unfold introduced? at h
    split at h
    · next cs =>
      extract_lets name rest at h
      have hcs : cs = name ++ rest := by
        rw [List.prefix_iff_eq_append.1 (List.takeWhile_prefix _)]
      split at h
      · next hif =>
        obtain rfl := Option.some.inj h
        rw [Bool.and_eq_true, beq_iff_eq, Bool.not_eq_true', List.isEmpty_eq_false_iff] at hif
        refine ⟨name, congrArg _ hcs, hif.1, fun c hc => ?_, hif.2⟩
        simpa using List.all_eq_true.1 List.all_takeWhile c hc
      · simp at h
    · simp at h
  · rintro ⟨name, rfl, hne, hname, hr⟩
    obtain ⟨r, rfl⟩ := List.head?_eq_some_iff.1 hr
    have htake : (name ++ '\'' :: r).takeWhile (fun c => (Text.foldChar c).isAlphanum) = name := by
      have hquote : (Text.foldChar '\'').isAlphanum = false := by decide
      rw [List.takeWhile_append_of_pos hname, List.takeWhile_cons, hquote]
      simp
    simp [introduced?, htake, hne]

/-- No blank is part of an introducer. -/
theorem isBlank_of_foldChar {c : Char} (h : (Text.foldChar c).isAlphanum = true) :
    Text.isBlank c = false := by
  have hblanks : ∀ n ∈ Text.blanks, (Text.foldChar (Char.ofNat n)).isAlphanum = false := by decide
  by_contra hb
  have hfold := hblanks c.toNat (Text.mem_blanks (by simpa using hb))
  rw [Char.ofNat_toNat, h] at hfold
  cases hfold

private theorem introduced?_squeezed (h : introduced? t = none) :
    introduced? (Text.squeezed t) = none := by
  by_contra hsome
  obtain ⟨r, hr⟩ := Option.ne_none_iff_exists'.1 hsome
  obtain ⟨name, ht, hne, hname, hhead⟩ := introduced?_eq_some_iff.1 hr
  obtain ⟨r, rfl⟩ := List.head?_eq_some_iff.1 hhead
  have hsolid : ∀ c ∈ '_' :: (name ++ ['\'']), Text.isBlank c = false := by
    intro c hc
    rw [List.mem_cons, List.mem_append, List.mem_singleton] at hc
    rcases hc with rfl | hc | rfl
    · decide
    · exact isBlank_of_foldChar (hname c hc)
    · decide
  have hsplit : Text.squeezed t = '_' :: (name ++ ['\'']) ++ r := by simpa using ht
  obtain ⟨s, hs, -⟩ := Text.exists_of_squeezed hsolid hsplit
  have : introduced? t = some ('\'' :: s) :=
    introduced?_eq_some_iff.2 ⟨name, by simpa using hs, hne, hname, rfl⟩
  rw [h] at this
  cases this

/-- A text between two quotes is one literal, unless it is a name. -/
theorem literal?_cons_of_quotes {q : Char} {s : Text} (hq : Token.isQuote q = true)
    (h : Token.Quotes q v s) : literal? (q :: s) = if q = '\x60' then none else some v := by
  have hstarts : Lexeme.startsToken (q :: s) = true := by
    refine Lexeme.startsToken_cons ?_ ?_ ?_ s <;>
    · simp only [Token.isQuote, Bool.or_eq_true, beq_iff_eq] at hq
      rcases hq with (rfl | rfl) | rfl <;> decide
  have hclear : Lexeme.Clear [⟨[], q :: s, Token.ofLiteral q v⟩] [] :=
    ⟨⟨by simp, by simpa using hstarts, .literal hq h (by simp)⟩, trivial⟩
  have hlex := Lexeme.lex_source hclear (by simp)
  simp only [Lexeme.source_cons, Lexeme.source_nil, List.append_nil, List.nil_append] at hlex
  rw [literal?, hlex, Token.ofLiteral]
  by_cases hname : q = '\x60' <;> simp [hname]

private theorem literal?_squeezed (ht : '\\' ∉ t) (h : literal? t = none) :
    literal? (Text.squeezed t) = none := by
  by_contra hsome
  obtain ⟨v, hv⟩ := Option.ne_none_iff_exists'.1 hsome
  obtain ⟨q, s, hq, hqs, hs⟩ := quotes_of_literal? hv
  have hblank : Text.isBlank q = false := by
    simp only [Token.isQuote, Bool.or_eq_true, beq_iff_eq] at hq
    rcases hq with (rfl | rfl) | rfl <;> decide
  obtain ⟨s, rfl, rfl⟩ := Text.exists_of_squeezed (a := [q]) (by simpa using hblank) hqs
  rw [List.singleton_append, List.mem_cons, not_or] at ht
  obtain ⟨u, hu⟩ := hs.exists_of_squeezed hblank ht.2
  rw [hqs, literal?_cons_of_quotes hq hs] at hv
  rw [List.singleton_append, literal?_cons_of_quotes hq hu] at h
  split at h
  · next hname => simp [hname] at hv
  · cases h

private theorem normalizePlain_trim (raw : Text) :
    normalizePlain (Text.trim raw) = normalizePlain raw := by
  have hcollapsed : Text.collapsed (Text.trim raw) = Text.collapsed raw :=
    congrArg (Text.join [' ']) (Text.words_trim raw)
  rw [normalizePlain, hcollapsed, Text.trim_trim, normalizePlain]

/-- Blanks around a value do not count, and neither does the introducer of a literal. -/
theorem exists_solid (h : normalize raw = some v) : ∃ t, Text.Solid t ∧ introduced? t = none ∧
    (∀ c ∈ t, c ∈ raw) ∧ normalize t = some v := by
  cases hblank : Text.blank raw with
  | true =>
    have hempty : Text.collapsed raw = [] := by rw [Text.collapsed, Text.words_of_blank hblank]; rfl
    rw [normalize, Text.trim_of_blank hblank] at h
    simp [introduced?, normalizePlain, hempty] at h
  | false =>
    have hsolid := Text.solid_trim hblank
    have hmem := fun c hc => @Text.mem_of_mem_trim c raw hc
    rw [normalize] at h
    cases hi : introduced? (Text.trim raw) with
    | none =>
      refine ⟨Text.trim raw, hsolid, hi, hmem, ?_⟩
      rw [hi, Option.getD_none] at h
      rwa [normalize, hsolid.trim, hi, Option.getD_none, normalizePlain_trim]
    | some r =>
      rw [hi, Option.getD_some] at h
      obtain ⟨name, ht, -, -, hr⟩ := introduced?_eq_some_iff.1 hi
      have hnone : introduced? r = none := introduced?_of_head? (by simp [hr])
      have hlast : (Text.trim raw).getLast? = r.getLast? := by
        have hne : r ≠ [] := by rintro rfl; simp at hr
        rw [ht, ← List.cons_append, List.getLast?_append_of_ne_nil _ hne]
      have hrest : Text.Solid r := by
        refine ⟨by rintro rfl; simp at hr, fun c hc => ?_, fun c hc => hsolid.last c (hlast ▸ hc)⟩
        obtain rfl := Option.some.inj (hr.symm.trans hc)
        decide
      refine ⟨r, hrest, hnone, fun c hc => hmem c ?_, ?_⟩
      · rw [ht]
        exact List.mem_cons_of_mem _ (List.mem_append_right name hc)
      · rwa [normalize, hrest.trim, hnone, Option.getD_none]

/-- A literal, or a text with its blanks collapsed that none of the rules changes. -/
inductive IsNormal : Text → Prop
  | literal (s : Text) (h : '\\' ∉ s) : IsNormal (quoteLiteral s)
  | settled {t : Text} (hs : Text.Solid t) (hc : Text.collapsed t = t) (hi : introduced? t = none)
      (hl : literal? t = none) (h : classify t none = t) : IsNormal t

private theorem IsNormal.normalize (h : IsNormal v) : normalize v = some v := by
  cases h with
  | literal s hs => exact DefaultPhrase.normalize_quoteLiteral hs
  | settled hs hc hi hl h => rw [normalize_eq_classify hs hi, hc, hl, h]

private theorem isNormal_keyword (h : t = "NULL" ∨ t = "TRUE" ∨ t = "FALSE") : IsNormal t := by
  rcases h with rfl | rfl | rfl <;>
  exact .settled ⟨by decide, by simpa using by decide, by simpa using by decide⟩ (by decide) rfl
    (by decide +kernel) (by decide +kernel)

private theorem isNormal_quoted (hq : '\'' ∉ t) (hb : '\\' ∉ t) :
    IsNormal ('\'' :: (t ++ ['\''])) := by
  have hself : quoteLiteral t = '\'' :: (t ++ ['\'']) := by
    rw [quoteLiteral, Text.enclosed, Text.doubled_of_not_mem hq]
  exact hself ▸ .literal t hb

/-- A call of the clock begins with a letter. -/
theorem isNumeral_of_isClock (h : isClock t = true) : isNumeral t = false := by
  cases t with
  | nil => rfl
  | cons c t =>
    have hfold : Text.foldChar c = 'c' ∨ Text.foldChar c = 'n' := by
      by_contra hne
      rw [not_or] at hne
      rw [DefaultPhrase.isClock_cons t hne.1 hne.2] at h
      cases h
    have hlower : c.toLower = 'c' ∨ c.toLower = 'n' := by
      unfold Text.foldChar at hfold
      split at hfold
      · simp at hfold
      · split at hfold
        · simp at hfold
        · exact hfold
    rcases hlower with hc | hc <;> rcases Text.eq_or_eq_toUpper hc with rfl | rfl <;>
    exact DefaultPhrase.isNumeral_cons t (by decide) (by decide)

private theorem isNormal_clock (hs : Text.Solid t) (hc : Text.collapsed t = t)
    (h : isClock t = true) : IsNormal (Text.upper t) := by
  have hcapitals := hasCapitals_of_isClock h
  have hclock : isClock (t.map capital) = true := (keepsClock_capital.isClock_map t).trans h
  have hquote : '\'' ∉ t.map capital := (outsideClock_of_isQuote rfl).not_mem hclock
  have hnull : Text.holds "NULL" (Text.upper (t.map capital)) = false := by
    have hout : OutsideClock 'L' := ⟨by decide, by decide⟩
    by_contra hholds
    rw [Bool.not_eq_false, hcapitals.upper_map] at hholds
    exact hout.not_mem hclock ((Text.holds_iff_isInfix.1 hholds).subset (by decide))
  rw [hcapitals.upper]
  refine .settled (solid_map_capital hs) (collapsed_map_capital hc) (introduced?_of_not_mem hquote)
    (literal?_eq_none_of_getLast? fun c hc => ?_) ?_
  · by_contra hlast
    have hout := outsideClock_of_isQuote (Bool.not_eq_false _ ▸ hlast)
    exact hout.not_mem hclock (List.mem_of_getLast? hc)
  · rw [classify, hnull, Bool.and_false, isNumeral_of_isClock hclock, hclock, hcapitals.upper_map]
    rfl

private theorem isNormal_truth (h : Text.oneOf ["true", "false"] t = true) :
    IsNormal (Text.upper t) := by
  have hlower : t.map capital = (Text.lowerAscii t).map capital := by
    rw [Text.lowerAscii, List.map_map]
    exact List.map_congr_left fun c _ => (Text.apply_toLower capital (by decide) c).symm
  obtain ⟨name, hname, hsame⟩ := List.any_eq_true.1 h
  rw [(hasCapitals_of_truth h).upper, hlower, beq_iff_eq.1 hsame]
  simp only [List.mem_cons, List.not_mem_nil, or_false] at hname
  rcases hname with rfl | rfl
  · exact isNormal_keyword (.inr (.inl (by decide)))
  · exact isNormal_keyword (.inr (.inr (by decide)))

/-- The normal form of a value is in normal form. -/
theorem isNormal_classify (ht : Text.Solid t) (hi : introduced? t = none) (hb : '\\' ∉ t) :
    IsNormal (classify (Text.collapsed t) (literal? t)) := by
  have hsolid := Text.solid_collapsed ht
  have hself := Text.collapsed_collapsed t
  have hnotIntroduced : introduced? (Text.collapsed t) = none := by
    rw [ht.collapsed_eq_squeezed]
    exact introduced?_squeezed hi
  have hliteral : literal? t = none → literal? (Text.collapsed t) = none := by
    rw [ht.collapsed_eq_squeezed]
    exact literal?_squeezed hb
  generalize Text.collapsed t = u at hsolid hself hnotIntroduced hliteral
  unfold classify
  split
  · exact isNormal_keyword (.inl rfl)
  next hnull =>
  split
  · next hnumeral =>
    refine isNormal_quoted (fun hm => ?_) fun hm => ?_
    · simp [isNumeral_eq_false (by decide) (by decide) hm] at hnumeral
    · simp [isNumeral_eq_false (by decide) (by decide) hm] at hnumeral
  next hnumeral =>
  split
  · next hclock => exact isNormal_clock hsolid hself hclock
  next hclock =>
  split
  · next htruth => exact isNormal_truth htruth
  next htruth =>
  split
  · next hdate =>
    have hforeign : ∀ c ∈ ['\'', '\\'], c ∉ u := by
      intro c hc hm
      have hforeign : Calendar.Foreign c := by
        simp only [List.mem_cons, List.not_mem_nil, or_false] at hc
        rcases hc with rfl | rfl <;> exact ⟨by decide, by decide, by decide⟩
      simp [hforeign.isDate_eq_false hm, hforeign.isDateTime_eq_false hm] at hdate
    exact isNormal_quoted (hforeign _ (by simp)) (hforeign _ (by simp))
  next hdate =>
  cases hl : literal? t with
  | some s =>
    obtain ⟨q, w, -, rfl, hw⟩ := quotes_of_literal? hl
    exact .literal s fun hm => hb (List.mem_cons_of_mem q (hw.mem_of_mem hm))
  | none =>
    refine .settled hsolid hself hnotIntroduced (hliteral hl) ?_
    rw [classify, if_neg hnull, if_neg hnumeral, if_neg hclock, if_neg htruth, if_neg hdate]

private theorem isNormal_of_normalize (hraw : '\\' ∉ raw) (h : normalize raw = some v) :
    IsNormal v := by
  obtain ⟨t, ht, hi, hmem, hv⟩ := exists_solid h
  rw [normalize_eq_classify ht hi, Option.some.injEq] at hv
  exact hv ▸ isNormal_classify ht hi fun hm => hraw (hmem _ hm)

/-- Nothing changes when a value is normalized again. -/
theorem normalize_normalize (hraw : '\\' ∉ raw) (h : normalize raw = some v) :
    normalize v = some v :=
  (isNormal_of_normalize hraw h).normalize

/-- A doubled quote is kept, and so are the blanks of a literal and the NULL in it. -/
theorem normalize_normalize_introduced :
    normalize " _latin1'it''s  NULL' " = some "'it''s  NULL'" ∧
      normalize "'it''s  NULL'" = some "'it''s  NULL'" := by
  have hraw : normalize " _latin1'it''s  NULL' " = some "'it''s  NULL'" := by decide +kernel
  exact ⟨hraw, normalize_normalize (by decide) hraw⟩

end DefaultValue

end TableDialects
