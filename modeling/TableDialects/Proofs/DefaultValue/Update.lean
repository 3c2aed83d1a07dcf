import TableDialects.Proofs.DefaultValue.Clock
import TableDialects.Proofs.Text.Collapsed

/-!
# Update clauses

An update clause joins a default before the default has its normal form, or after. The result is the
same if the normal form of the default alone is the default, and in few other cases.
-/
namespace TableDialects

namespace Text

private theorem holds_append_left {needle t : Text} (h : holds needle t = true) (u : Text) :
    holds needle (t ++ u) = true :=
  holds_iff_isInfix.2 (List.infix_append_of_infix_left (holds_iff_isInfix.1 h))

private theorem upper_append (t u : Text) : upper (t ++ u) = upper t ++ upper u :=
  List.flatMap_append

end Text

namespace DefaultValue

/-- A value with an update clause behind it. -/
def updated (value event : Text) : Text := value ++ (" ON UPDATE ".toList ++ event)

section
variable {x e : Text}

private theorem solid_updated (hx : Text.Solid x) (he : Text.Solid e) :
    Text.Solid (updated x e) := by
  rw [updated, ← List.append_assoc]
  exact hx.append _ he

private theorem collapsed_updated (hx : Text.Solid x) (he : Text.Solid e) :
    Text.collapsed (updated x e) = updated (Text.collapsed x) (Text.collapsed e) := by
  have hwords : Text.words (updated x e) =
      Text.words x ++ (["ON".toList, "UPDATE".toList] ++ Text.words e) := by
    have hmark : updated x e = x ++ ' ' :: ("ON".toList ++ ' ' :: ("UPDATE".toList ++ ' ' :: e)) := by
      simp [updated]
    have hon : Text.words "ON" = ["ON".toList] := by decide +kernel
    have hupdate : Text.words "UPDATE" = ["UPDATE".toList] := by decide +kernel
    rw [hmark, Text.words_append_cons rfl, Text.words_append_cons rfl, Text.words_append_cons rfl,
      hon, hupdate]
    rfl
  rw [Text.collapsed, hwords, Text.join_append hx.words_ne_nil (by simp),
    Text.join_append (by simp) he.words_ne_nil]
  simp [updated, Text.collapsed, Text.join]

private theorem mem_updated {c : Char} (hc : c ∈ " ON UPDATE ".toList) : c ∈ updated x e :=
  List.mem_append_right _ (List.mem_append_left _ hc)

end

private theorem quotes_of_written {r s v : Text} {q : Char}
    (h : Token.Written r (.quoted q v) s) : Token.isQuote q = true ∧ ∃ u, s = q :: u ∧
      Token.Quotes q v u := by
  generalize hk : Token.quoted q v = k at h
  cases h with
  | @literal q' v' u hq h hr =>
    by_cases hname : q' = '\x60'
    · simp [Token.ofLiteral, hname] at hk
    · obtain ⟨rfl, rfl⟩ : q = q' ∧ v = v' := by simpa [Token.ofLiteral, hname] using hk
      exact ⟨hq, u, rfl, h⟩
  | _ => simp at hk

/-- A text that is one literal begins and ends with its quote. -/
theorem quotes_of_literal? {t v : Text} (h : literal? t = some v) :
    ∃ q s, Token.isQuote q = true ∧ t = q :: s ∧ Token.Quotes q v s := by
  unfold literal? at h
  split at h
  · next u q v' hlex =>
    obtain rfl := Option.some.inj h
    cases hdrop : t.drop (Lexeme.gapLength t) with
    | nil => simp [Lexeme.lex_of_drop_nil hdrop] at hlex
    | cons c cs =>
      simp only [Lexeme.lex_of_drop_cons hdrop, Prod.mk.injEq, List.cons.injEq,
        Lexeme.mk.injEq] at hlex
      obtain ⟨⟨⟨hgap, rfl, htoken⟩, hnone⟩, hrest⟩ := hlex
      have ht : t = c :: cs := by
        rw [← List.take_append_drop (Lexeme.gapLength t) t, hgap, hdrop, List.nil_append]
      have hnil : (Token.read c cs).rest = [] := Lexeme.eq_nil_of_lex (Prod.ext hnone hrest)
      obtain ⟨hsource, hwritten⟩ := @Token.written_read c cs (by simp [htoken])
      rw [htoken] at hwritten
      obtain ⟨hq, s, hs, hquotes⟩ := quotes_of_written hwritten
      exact ⟨q, s, hq, by rw [ht, hsource, hnil, List.append_nil, hs], hquotes⟩
  · simp at h

theorem literal?_eq_none_of_getLast? {t : Text} (h : ∀ c ∈ t.getLast?, Token.isQuote c = false) :
    literal? t = none := by
  by_contra hsome
  obtain ⟨v, hv⟩ := Option.ne_none_iff_exists'.1 hsome
  obtain ⟨q, s, hq, rfl, hs⟩ := quotes_of_literal? hv
  have hlast : (q :: s).getLast? = some q := by rw [List.getLast?_cons, hs.getLast?]; rfl
  exact absurd (h q hlast) (by simp [hq])

/-- Whether a quote leads the text. -/
def isQuoted (t : Text) : Bool := t.head? == some '\'' || t.head? == some '\"'

/-- The normal form of a text with its blanks collapsed, of which `literal` is the value if it is
one literal. -/
def classify (t : Text) (literal : Option Text) : Text :=
  if !isQuoted t && Text.holds "NULL" (Text.upper t) then "NULL"
  else if isNumeral t then '\'' :: (t ++ ['\''])
  else if isClock t then Text.upper t
  else if Text.oneOf ["true", "false"] t then Text.upper t
  else if !isQuoted t && (Calendar.isDate t || Calendar.isDateTime t) then '\'' :: (t ++ ['\''])
  else match literal with
    | some value => quoteLiteral value
    | none => t

theorem normalize_eq_classify {t : Text} (ht : Text.Solid t) (hi : introduced? t = none) :
    normalize t = some (classify (Text.collapsed t) (literal? t)) := by
  have hempty : (Text.collapsed t).isEmpty = false :=
    List.isEmpty_eq_false_iff.2 (Text.solid_collapsed ht).ne_nil
  rw [normalize, ht.trim, hi, Option.getD_none, normalizePlain, ht.trim]
  generalize Text.collapsed t = u at hempty
  simp only [hempty, Bool.false_eq_true, if_false]
  unfold classify
  simp only [apply_ite some]
  cases literal? t <;> rfl

/-- The normal form of a text with an update clause in it. -/
def kept (t : Text) : Text :=
  if !isQuoted t && Text.holds "NULL" (Text.upper t) then "NULL"
  else if isClock t then Text.upper t
  else t

/-- No update clause makes a number, a date, a truth value or a literal. -/
theorem normalize_updated {x e : Text} (hx : Text.Solid x) (hi : introduced? (updated x e) = none)
    (he : Text.Solid e) (hlast : ∀ c ∈ e.getLast?, Token.isQuote c = false) :
    normalize (updated x e) = some (kept (updated (Text.collapsed x) (Text.collapsed e))) := by
  have hliteral : literal? (updated x e) = none := by
    refine literal?_eq_none_of_getLast? fun c hc => hlast c ?_
    rwa [updated, ← List.append_assoc, List.getLast?_append_of_ne_nil _ he.ne_nil] at hc
  have hspace : ' ' ∈ updated (Text.collapsed x) (Text.collapsed e) := mem_updated (by decide)
  have hcapital : 'O' ∈ updated (Text.collapsed x) (Text.collapsed e) := mem_updated (by decide)
  rw [normalize_eq_classify (solid_updated hx he) hi, collapsed_updated hx he, hliteral]
  generalize updated (Text.collapsed x) (Text.collapsed e) = t at hspace hcapital
  have hforeign : Calendar.Foreign 'O' := ⟨by decide, by decide, by decide⟩
  have hnumeral : isNumeral t = false := isNumeral_eq_false (by decide) (by decide) hspace
  have htruth : Text.oneOf ["true", "false"] t = false := oneOf_eq_false hspace (by decide)
  simp only [classify, kept, hnumeral, htruth, hforeign.isDate_eq_false hcapital,
    hforeign.isDateTime_eq_false hcapital, Bool.or_self, Bool.and_false, Bool.false_eq_true,
    if_false]

section
variable {t r : Text}

private theorem isClock_of_isQuoted (h : isQuoted t = true) : isClock t = false := by
  cases t with
  | nil => simp [isQuoted] at h
  | cons c t =>
    have hc : Token.isQuote c = true := by
      simp only [isQuoted, List.head?_cons, Bool.or_eq_true, beq_iff_eq, Option.some.injEq] at h
      rcases h with rfl | rfl <;> decide
    by_contra hclock
    exact (outsideClock_of_isQuote hc).not_mem (by simpa using hclock) List.mem_cons_self

private theorem kept_of_isQuoted (h : isQuoted t = true) : kept t = t := by
  simp [kept, h, isClock_of_isQuoted h]

theorem capital_eq_iff {c d : Char} (hd : d ∈ ['\'', '\"', '_']) : capital c = d ↔ c = d := by
  have hfold : 'S' ≠ d ∧ 'ſ' ≠ d := by
    constructor <;> rintro rfl <;> exact absurd hd (by decide)
  by_cases hc : c = 'ſ'
  · subst hc
    exact iff_of_false hfold.1 hfold.2
  · rw [capital, if_neg hc]
    simp only [List.mem_cons, List.not_mem_nil, or_false] at hd
    rcases hd with rfl | rfl | rfl <;> exact Text.toUpper_eq_iff (by decide) c

/-- Only a text with a quote in front keeps one there. -/
theorem head?_kept (h : isQuoted t = false) : (kept t).head? ≠ some '\'' := by
  have hself : t.head? ≠ some '\'' := by
    simp only [isQuoted, Bool.or_eq_false_iff, beq_eq_false_iff_ne] at h
    exact h.1
  unfold kept
  split
  · decide
  · split
    · next hclock =>
      rw [(hasCapitals_of_isClock hclock).upper]
      cases t with
      | nil => simp
      | cons c t => simpa [capital_eq_iff] using hself
    · exact hself

/-- Unless it mentions NULL, a text keeps its length. -/
theorem length_kept (t : Text) : kept t = "NULL".toList ∨ (kept t).length = t.length := by
  unfold kept
  split
  · exact .inl rfl
  · split
    · next hclock => exact .inr (by rw [(hasCapitals_of_isClock hclock).upper, List.length_map])
    · exact .inr rfl

end

/-- What becomes of a value with its blanks collapsed, if no update clause is behind it. -/
inductive Normalizes (t : Text) : Text → Prop
  /-- A value that mentions NULL. -/
  | null (hq : isQuoted t = false) (hn : Text.holds "NULL" (Text.upper t) = true) :
    Normalizes t "NULL"
  /-- A literal, a number or a date. -/
  | quoted (v : Text) : Normalizes t ('\'' :: (v ++ ['\'']))
  /-- A call of the clock or a truth value. -/
  | capital (hc : HasCapitals t) (hm : t.head? ≠ some '_') (hne : t.map capital ≠ "NULL") :
    Normalizes t (t.map capital)
  /-- Any other value. -/
  | same (hne : t ≠ "NULL") : Normalizes t t

/-- What is upper case is no `NULL`, unless it was found to be one. -/
theorem HasCapitals.map_ne_null {t : Text} (h : HasCapitals t)
    (hnull : ¬ (!isQuoted t && Text.holds "NULL" (Text.upper t)) = true) :
    t.map capital ≠ "NULL" := by
  intro he
  have hholds : Text.holds "NULL" (Text.upper t) = true := by
    rw [h.upper, he]
    decide
  rw [hholds, Bool.and_true] at hnull
  have hquoted : isQuoted t = true := by simpa using hnull
  cases t with
  | nil => simp at he
  | cons c t =>
    have hcapital : capital c = 'N' := (List.cons.inj he).1
    have hquote : capital '\'' ≠ 'N' ∧ capital '\"' ≠ 'N' := by decide
    simp only [isQuoted, List.head?_cons, Bool.or_eq_true, beq_iff_eq, Option.some.injEq] at hquoted
    rcases hquoted with rfl | rfl
    · exact hquote.1 hcapital
    · exact hquote.2 hcapital

private theorem normalizes_classify (t : Text) (literal : Option Text) :
    Normalizes t (classify t literal) := by
  unfold classify
  split
  · next hnull =>
    rw [Bool.and_eq_true, Bool.not_eq_true'] at hnull
    exact .null hnull.1 hnull.2
  next hnull =>
  split
  · exact .quoted t
  split
  · next hclock =>
    have hcapitals := hasCapitals_of_isClock hclock
    rw [hcapitals.upper]
    refine .capital hcapitals (fun hm => ?_) (hcapitals.map_ne_null hnull)
    obtain ⟨u, rfl⟩ := List.head?_eq_some_iff.1 hm
    exact absurd hclock (by simp [DefaultPhrase.isClock_cons (c := '_') u (by decide) (by decide)])
  split
  · next htruth =>
    have hcapitals := hasCapitals_of_truth htruth
    rw [hcapitals.upper]
    refine .capital hcapitals (fun hm => ?_) (hcapitals.map_ne_null hnull)
    obtain ⟨u, rfl⟩ := List.head?_eq_some_iff.1 hm
    exact absurd htruth
      (by simp [DefaultPhrase.oneOf_truth_cons (c := '_') u (by decide) (by decide)])
  split
  · exact .quoted t
  split
  · exact .quoted _
  · exact .same fun ht => hnull (by rw [ht]; decide +kernel)

/-- An update clause that joins a value in its normal form `v`, unless there is one. -/
def joined (v event : Text) : Option Text :=
  if Text.holds " ON UPDATE " (Text.upper v) then some v else normalize (updated v event)

section
variable {t r v : Text}

theorem isQuoted_updated (ht : t ≠ []) : isQuoted (updated t r) = isQuoted t := by
  obtain ⟨c, t, rfl⟩ := List.exists_cons_of_ne_nil ht
  rfl

private theorem length_lt_updated : t.length < (updated t r).length := by
  simp only [updated, List.length_append]
  have : 0 < " ON UPDATE ".toList.length := by decide
  omega

/-- No value is kept with an update clause behind it if it is as long as without. -/
theorem kept_updated_ne (hv : v.length = t.length) (hne : v ≠ "NULL") :
    kept (updated t r) ≠ v := by
  rcases length_kept (updated t r) with hk | hk
  · rw [hk]
    exact hne.symm
  · intro he
    have := @length_lt_updated t r
    rw [he] at hk
    omega

-- Each value is kept in its own way, so there is one comparison for each.

variable (hr : r ≠ []) (hlast : ∀ c ∈ r.getLast?, Token.isQuote c = false)

private theorem kept_updated_null (hq : isQuoted t = false)
    (hn : Text.holds "NULL" (Text.upper t) = true) : kept (updated t r) = "NULL".toList := by
  have ht : t ≠ [] := by
    rintro rfl
    exact absurd hn (by decide)
  have hholds : Text.holds "NULL" (Text.upper (updated t r)) = true := by
    rw [updated, Text.upper_append]
    exact Text.holds_append_left hn _
  rw [kept, isQuoted_updated ht, hq, hholds]
  rfl

private theorem isQuoted_of_head? (h : t.head? = some '\'') : isQuoted t = true := by
  simp [isQuoted, h]

private theorem updated_inj : updated t r = updated v r ↔ t = v := by
  rw [updated, updated, List.append_left_inj]

include hr hlast in
private theorem kept_updated_ne_literal (ht : t ≠ []) (hv : v.head? = some '\'')
    (hv' : v.getLast? = some '\'') : kept (updated t r) ≠ v := by
  intro he
  cases hq : isQuoted t with
  | true =>
    rw [kept_of_isQuoted ((isQuoted_updated ht).trans hq)] at he
    have hend : r.getLast? = some '\'' := by
      rw [← hv', ← he, updated, ← List.append_assoc, List.getLast?_append_of_ne_nil _ hr]
    exact absurd (hlast _ hend) (by decide)
  | false =>
    exact head?_kept ((isQuoted_updated ht).trans hq) (he ▸ hv)

/-- A literal is kept as it is, and nothing else is kept as a literal. -/
theorem kept_updated_literal (ht : t ≠ []) (hv : v.head? = some '\'') :
    kept (updated t r) = kept (updated v r) ↔ t = v := by
  have hv' : v ≠ [] := by
    rintro rfl
    simp at hv
  have hquoted : isQuoted (updated v r) = true :=
    (isQuoted_updated hv').trans (isQuoted_of_head? hv)
  have hhead : (updated v r).head? = some '\'' := by
    obtain ⟨c, u, rfl⟩ := List.exists_cons_of_ne_nil hv'
    exact hv
  rw [kept_of_isQuoted hquoted]
  cases hq : isQuoted t with
  | true => rw [kept_of_isQuoted ((isQuoted_updated ht).trans hq), updated_inj]
  | false =>
    refine iff_of_false (fun he => ?_) (fun he => ?_)
    · exact head?_kept ((isQuoted_updated ht).trans hq) (he ▸ hhead)
    · exact absurd (isQuoted_of_head? hv) (by simp [← he, hq])

/-- A value in capitals is kept as the value, unless it shows that it is in capitals. -/
theorem kept_updated_capital (hc : HasCapitals t) (ht : t ≠ []) :
    kept (updated t r) = kept (updated (t.map capital) r) ↔
      t.map capital = t ∨ isQuoted (t.map capital) = false ∧
        (Text.holds "NULL" (Text.upper (updated t r)) = true ∨ isClock (updated t r) = true) := by
  have hupper : Text.upper (updated (t.map capital) r) = Text.upper (updated t r) := by
    simp only [updated, Text.upper_append, hc.upper, hc.upper_map]
  have hclock : isClock (updated (t.map capital) r) = isClock (updated t r) := by
    have hmap : (updated (t.map capital) r).map capital = (updated t r).map capital := by
      simp [updated, Function.comp_def, capital_capital]
    rw [← keepsClock_capital.isClock_map, hmap, keepsClock_capital.isClock_map]
  have hquoted : isQuoted (t.map capital) = isQuoted t := by
    obtain ⟨c, t, rfl⟩ := List.exists_cons_of_ne_nil ht
    have hhead : ∀ q ∈ ['\'', '\"', '_'], (some (capital c) == some q) = (some c == some q) :=
      fun q hq => by simp [capital_eq_iff hq, Bool.beq_eq_decide_eq]
    simp only [isQuoted, List.map_cons, List.head?_cons, hhead '\'' (by simp),
      hhead '\"' (by simp)]
  have hne : t.map capital ≠ [] := by simpa using ht
  rw [kept, kept, isQuoted_updated hne, isQuoted_updated ht, hupper, hclock, hquoted]
  by_cases hnull : (!isQuoted t && Text.holds "NULL" (Text.upper (updated t r))) = true
  · rw [if_pos hnull, if_pos hnull]
    rw [Bool.and_eq_true, Bool.not_eq_true'] at hnull
    exact iff_of_true rfl (.inr ⟨hnull.1, .inl hnull.2⟩)
  · rw [if_neg hnull, if_neg hnull]
    by_cases hcall : isClock (updated t r) = true
    · rw [if_pos hcall, if_pos hcall]
      refine iff_of_true rfl (.inr ⟨?_, .inr hcall⟩)
      by_contra hq
      have := isClock_of_isQuoted ((isQuoted_updated (r := r) ht).trans (by simpa using hq))
      exact absurd hcall (by simp [this])
    · rw [if_neg hcall, if_neg hcall, updated_inj, eq_comm]
      refine (or_iff_left fun ⟨hq, hor⟩ => ?_).symm
      rcases hor with hholds | hor
      · exact hnull (by rw [hq, hholds]; rfl)
      · exact hcall hor

end

/-- When an update clause may join the value alone: the normal form `v` of the value mentions no
update, and it is the value, or what is made of the whole does not depend on it. -/
inductive Agrees (t r v : Text) : Prop
  | null (h : v = "NULL")
  | same (h : Text.holds " ON UPDATE " (Text.upper v) = false) (hv : Text.collapsed v = t)
  | lost (h : Text.holds " ON UPDATE " (Text.upper v) = false) (hq : isQuoted v = false)
    (hr : Text.holds "NULL" (Text.upper (updated t r)) = true ∨ isClock (updated t r) = true)

section
variable {t r v : Text}

private theorem Agrees.mark (h : Agrees t r v) (hne : v ≠ "NULL") :
    Text.holds " ON UPDATE " (Text.upper v) = false := by
  cases h with
  | null h => exact absurd h hne
  | same h _ | lost h _ _ => exact h

private theorem isBlank_capital (c : Char) : Text.isBlank (capital c) = Text.isBlank c := by
  rw [capital]
  split
  · next hc => rw [hc]; decide
  · exact Text.isBlank_toUpper c

theorem collapsed_map_capital (ht : Text.collapsed t = t) :
    Text.collapsed (t.map capital) = t.map capital := by
  rw [Text.collapsed_map isBlank_capital t (by decide), ht]

theorem solid_map_capital (ht : Text.Solid t) : Text.Solid (t.map capital) where
  ne_nil := by simpa using ht.ne_nil
  head := by
    intro c hc
    rw [List.head?_map, Option.mem_def, Option.map_eq_some_iff] at hc
    obtain ⟨d, hd, rfl⟩ := hc
    rw [isBlank_capital, ht.head d hd]
  last := by
    intro c hc
    rw [List.getLast?_map, Option.mem_def, Option.map_eq_some_iff] at hc
    obtain ⟨d, hd, rfl⟩ := hc
    rw [isBlank_capital, ht.last d hd]

private theorem solid_quoted (v : Text) : Text.Solid ('\'' :: (v ++ ['\''])) where
  ne_nil := by simp
  head := by simpa using by decide
  last := by
    rw [← List.cons_append, List.getLast?_append_of_ne_nil _ (by simp)]
    simpa using by decide

/-- A normal form that holds the words of an update clause stays by itself. -/
theorem kept_updated_iff_of_mark (hnull : v ≠ "NULL")
    (hmark : Text.holds " ON UPDATE " (Text.upper v) = true) (hne : kept (updated t r) ≠ v) :
    kept (updated t r) =
        (if Text.holds " ON UPDATE " (Text.upper v) then v
          else kept (updated (Text.collapsed v) r)) ↔ Agrees t r v := by
  rw [if_pos hmark]
  refine iff_of_false hne fun ha => ?_
  simpa using hmark.symm.trans (ha.mark hnull)

/-- What a value is kept as with its update clause, before and after its normal form. -/
theorem kept_updated_iff (ht : Text.Solid t) (hself : Text.collapsed t = t) (hr : r ≠ [])
    (hlast : ∀ c ∈ r.getLast?, Token.isQuote c = false) (hv : Normalizes t v) :
    kept (updated t r) =
        (if Text.holds " ON UPDATE " (Text.upper v) then v
          else kept (updated (Text.collapsed v) r)) ↔ Agrees t r v := by
  have hne := ht.ne_nil
  cases hv with
  | null hq hn =>
    have hmark : Text.holds " ON UPDATE " (Text.upper "NULL") = false := by decide
    have hself : Text.collapsed "NULL" = "NULL".toList := by decide
    have hnull : isQuoted "NULL" = false ∧ Text.holds "NULL" (Text.upper "NULL") = true := by decide
    rw [hmark, if_neg (by simp), hself, kept_updated_null hq hn, kept_updated_null hnull.1 hnull.2]
    exact iff_of_true rfl (.null rfl)
  | quoted w =>
    have hsolid := solid_quoted w
    generalize hv : '\'' :: (w ++ ['\'']) = v at hsolid
    have hhead : v.head? = some '\'' := by rw [← hv]; rfl
    have hend : v.getLast? = some '\'' := by
      rw [← hv, ← List.cons_append, List.getLast?_append_of_ne_nil _ (by simp)]
      rfl
    have hnull : v ≠ "NULL" := by rintro rfl; exact absurd hhead (by decide)
    by_cases hmark : Text.holds " ON UPDATE " (Text.upper v) = true
    · exact kept_updated_iff_of_mark hnull hmark (kept_updated_ne_literal hr hlast hne hhead hend)
    · have hhead' : (Text.collapsed v).head? = some '\'' := hsolid.head?_collapsed.trans hhead
      rw [if_neg hmark, kept_updated_literal hne hhead', eq_comm]
      refine ⟨.same (by simpa using hmark), fun ha => ?_⟩
      cases ha with
      | null h => exact absurd h hnull
      | same _ hv => exact hv
      | lost _ hq _ => exact absurd (isQuoted_of_head? hhead) (by simp [hq])
  | capital hc hm hnull =>
    by_cases hmark : Text.holds " ON UPDATE " (Text.upper (t.map capital)) = true
    · exact kept_updated_iff_of_mark hnull hmark (kept_updated_ne (List.length_map _) hnull)
    · have hcollapsed := collapsed_map_capital hself
      rw [if_neg hmark, hcollapsed, kept_updated_capital hc hne]
      rw [Bool.not_eq_true] at hmark
      refine ⟨fun h => ?_, fun ha => ?_⟩
      · rcases h with h | ⟨hq, hor⟩
        · exact .same hmark (hcollapsed.trans h)
        · exact .lost hmark hq hor
      · cases ha with
        | null h => exact absurd h hnull
        | same _ hv => exact .inl (hcollapsed.symm.trans hv)
        | lost _ hq hor => exact .inr ⟨hq, hor⟩
  | same hnull =>
    by_cases hmark : Text.holds " ON UPDATE " (Text.upper t) = true
    · exact kept_updated_iff_of_mark hnull hmark (kept_updated_ne rfl hnull)
    · rw [if_neg hmark, hself]
      exact iff_of_true rfl (.same (by simpa using hmark) hself)

end

theorem introduced?_of_head? {t : Text} (h : t.head? ≠ some '_') : introduced? t = none := by
  unfold introduced?
  split
  · exact absurd rfl h
  · rfl

theorem introduced?_of_not_mem {t : Text} (h : '\'' ∉ t) : introduced? t = none := by
  unfold introduced?
  split
  · next cs =>
    extract_lets name rest
    have hrest : rest.head? ≠ some '\'' := fun hr =>
      h (List.mem_cons_of_mem _ ((List.drop_sublist _ _).subset (List.mem_of_mem_head? hr)))
    simp [hrest]
  · rfl

/-- A value that no introducer begins, whatever stands behind it, and whether or not its blanks are
collapsed. -/
structure Joinable (h : Text) : Prop where
  solid : Text.Solid h
  introduced : introduced? h = none
  spaced : ∀ u, introduced? (h ++ ' ' :: u) = none
  collapsed : ∀ u, introduced? (Text.collapsed h ++ ' ' :: u) = none

private theorem head?_append_of_solid {t : Text} (h : Text.Solid t) (u : Text) :
    (t ++ u).head? = t.head? := by
  obtain ⟨c, t, rfl, -⟩ := h.exists_cons
  rfl

theorem joinable_of_head? {h : Text} (hs : Text.Solid h) (hh : h.head? ≠ some '_') :
    Joinable h where
  solid := hs
  introduced := introduced?_of_head? hh
  spaced u := introduced?_of_head? (by rwa [head?_append_of_solid hs])
  collapsed u := introduced?_of_head?
    (by rwa [head?_append_of_solid (Text.solid_collapsed hs), hs.head?_collapsed])

/-- A name begins the value, and a list in parentheses may follow it. -/
theorem joinable_append {w u : Text} (hs : Text.Solid (w ++ u)) (hne : w ≠ [])
    (hw : ∀ c ∈ w, Text.isBlank c = false) (hq : '\'' ∉ w) (hu : ∀ c ∈ u.head?, c = '(') :
    Joinable (w ++ u) := by
  have happend : ∀ v : Text, (∀ c ∈ v.head?, c = ' ' ∨ c = '(') → introduced? (w ++ v) = none := by
    intro v hv
    cases v with
    | nil =>
      rw [List.append_nil]
      exact introduced?_of_not_mem hq
    | cons c v => exact introduced?_append hne hq (hv c rfl)
  have hspaced : ∀ v : Text, (∀ c ∈ v.head?, c = '(') →
      ∀ r, introduced? (w ++ v ++ ' ' :: r) = none := by
    intro v hv r
    rw [List.append_assoc]
    refine happend _ fun c hc => ?_
    cases v with
    | nil => exact .inl (Option.some.inj hc).symm
    | cons d v => exact .inr (hv c hc)
  refine ⟨hs, happend u fun c hc => .inr (hu c hc), hspaced u hu, ?_⟩
  cases u with
  | nil =>
    have hself : Text.collapsed w = w := by
      rw [Text.collapsed, Text.words_of_forall hne hw]
      simp [Text.join]
    rw [List.append_nil, hself]
    simpa using hspaced [] hu
  | cons c u =>
    obtain rfl := hu c rfl
    obtain ⟨v, hv⟩ := Text.collapsed_cons (c := '(') (by decide) u
    rw [Text.collapsed_append_cons hw (by decide), hv]
    exact hspaced _ (by simp)

/-- The update clause of a value may be read before its normal form is known or after. The result is
the same exactly if the two agree. -/
theorem normalize_updated_iff {h e : Text} (hh : Joinable h) (he : Text.Solid e)
    (hlast : ∀ c ∈ e.getLast?, Token.isQuote c = false) :
    ∃ v, normalize h = some v ∧ joined v e ≠ none ∧
      (normalize (updated h e) = joined v e ↔ Agrees (Text.collapsed h) (Text.collapsed e) v) := by
  have hnormal := normalize_eq_classify hh.solid hh.introduced
  have hv := normalizes_classify (Text.collapsed h) (literal? h)
  generalize classify (Text.collapsed h) (literal? h) = v at hnormal hv
  have hsolid := Text.solid_collapsed hh.solid
  have hself : Text.Solid v ∧ introduced? (updated v e) = none := by
    cases hv with
    | null =>
      have hnull : Text.Solid "NULL".toList :=
        ⟨by decide, by simpa using by decide, by simpa using by decide⟩
      exact ⟨hnull, introduced?_of_head? (by simp [updated])⟩
    | quoted w => exact ⟨solid_quoted w, introduced?_of_head? (by simp [updated])⟩
    | same => exact ⟨hsolid, hh.collapsed _⟩
    | capital _ hm =>
      have hmap := solid_map_capital hsolid
      refine ⟨hmap, introduced?_of_head? ?_⟩
      rw [updated, head?_append_of_solid hmap, List.head?_map]
      intro hhead
      obtain ⟨c, hc, hcapital⟩ := Option.map_eq_some_iff.1 hhead
      rw [(capital_eq_iff (by simp)).1 hcapital] at hc
      exact hm hc
  have hlast' : ∀ c ∈ (Text.collapsed e).getLast?, Token.isQuote c = false := by
    rwa [he.getLast?_collapsed]
  have hjoined : joined v e = some (if Text.holds " ON UPDATE " (Text.upper v) then v
      else kept (updated (Text.collapsed v) (Text.collapsed e))) := by
    rw [joined, normalize_updated hself.1 hself.2 he hlast, ← apply_ite some]
  refine ⟨v, hnormal, hjoined ▸ Option.some_ne_none _, ?_⟩
  rw [← kept_updated_iff hsolid (Text.collapsed_collapsed h) (Text.solid_collapsed he).ne_nil hlast'
    hv, normalize_updated hh.solid (hh.spaced _) he hlast, hjoined, Option.some.injEq]

end DefaultValue

end TableDialects
