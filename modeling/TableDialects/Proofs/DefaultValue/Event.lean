import TableDialects.Dialect.Attribute
import TableDialects.Proofs.DefaultValue.Date
import TableDialects.Proofs.DefaultValue.Expression
import TableDialects.Proofs.Token.Capital

/-!
# Event clauses

The event clauses behind a number, a word or a call are cut off for PostgreSQL, and SQLite drops
such a default. Behind a literal they stay in every dialect.
-/
namespace TableDialects

open Lexeme

namespace Text

variable {needle a : Text}

/-- The text is cut at the mark behind `a` if none begins in `a`. -/
theorem cutAt?_append (hne : needle ≠ []) (ha : holds needle a = false)
    (he : ∀ s, s ≠ [] → s <:+ a → ¬ s <+: needle) (b : Text) :
    cutAt? needle (a ++ (needle ++ b)) = some (a, needle ++ b) := by
  induction a with
  | nil =>
    obtain ⟨n, ns, rfl⟩ := List.exists_cons_of_ne_nil hne
    have hp : (n :: ns).isPrefixOf (n :: (ns ++ b)) = true :=
      List.isPrefixOf_iff_prefix.2 (List.prefix_append (n :: ns) b)
    rw [List.nil_append, List.cons_append, cutAt?, if_pos hp]
  | cons c a ih =>
    rw [holds_cons, Bool.or_eq_false_iff] at ha
    have hp : ¬ needle.isPrefixOf (c :: (a ++ (needle ++ b))) = true := by
      intro hp
      have hp : needle <+: (c :: a) ++ (needle ++ b) := List.isPrefixOf_iff_prefix.1 hp
      -- the mark ends within `c :: a`, or what is left of `c :: a` begins the mark
      rcases List.prefix_or_prefix_of_prefix hp (List.prefix_append _ _) with h | h
      · exact absurd (List.isPrefixOf_iff_prefix.2 h) (by simp [ha.1])
      · exact he _ (by simp) List.suffix_rfl h
    have hrec := ih ha.2 fun s hs hsuffix => he s hs (hsuffix.trans (List.suffix_cons c a))
    rw [List.cons_append, cutAt?, if_neg hp, hrec]
    rfl

end Text

namespace ValuePhrase

variable {v : ValuePhrase}

/-- A character of a number or of a name. -/
def IsPlain (c : Char) : Prop := Token.continuesWord c = true ∨ c = '.'

theorem IsPlain.isBlank {c : Char} (h : IsPlain c) : Text.isBlank c = false := by
  rcases h with h | rfl
  · exact Token.isBlank_of_continuesWord h
  · decide

theorem IsPlain.isQuote {c : Char} (h : IsPlain c) : Token.isQuote c = false := by
  by_contra hq
  simp only [Token.isQuote, Bool.not_eq_false, Bool.or_eq_true, beq_iff_eq] at hq
  unfold IsPlain at h
  rcases hq with (rfl | rfl) | rfl <;> exact absurd h (by decide)

private theorem isPlain_of_isWord {w : Text} (h : IsWord w) : w ≠ [] ∧ ∀ c ∈ w, IsPlain c := by
  obtain ⟨c, cs, rfl, hc, hcs⟩ := h.exists_cons
  exact ⟨by simp, fun d hd => .inl (Token.continuesWord_of_mem hc hcs d hd)⟩

/-- A value that is no literal begins with a number or a name, and parentheses may follow. -/
theorem exists_plain (h : v.WellFormed) (hl : v.isLiteral = false) :
    ∃ w u, v.text = w ++ u ∧ w ≠ [] ∧ (∀ c ∈ w, IsPlain c) ∧
      (u = [] ∨ ∃ t, u = '(' :: (t ++ [')'])) := by
  cases v with
  | literal value => simp [isLiteral] at hl
  | number digits =>
    have hne : digits ≠ [] := by
      rintro rfl
      simp [WellFormed] at h
    exact ⟨digits, [], by simp [text], hne, Token.mem_numeral h.2, .inl rfl⟩
  | word name =>
    obtain ⟨hne, hw⟩ := isPlain_of_isWord h.1
    exact ⟨name, [], by simp [text], hne, hw, .inl rfl⟩
  | call name arguments =>
    obtain ⟨hne, hw⟩ := isPlain_of_isWord h.1.1
    refine ⟨name, _, rfl, hne, hw, .inr ⟨Text.join [','] (arguments.map source), ?_⟩⟩
    rw [source_group]
    rfl

/-- No end of the value begins a mark of an event. -/
theorem not_prefix_mark (h : v.WellFormed) (hl : v.isLiteral = false) (k : EventKind) {s : Text}
    (hs : s ≠ []) (hsuffix : s <:+ Text.upperAscii v.text) : ¬ s <+: k.mark := by
  intro hbegins
  have hparen : ')' ∉ k.mark := by cases k <;> decide
  have hspace : s.head? = some ' ' := by
    obtain ⟨c, t, rfl⟩ := List.exists_cons_of_ne_nil hs
    obtain ⟨r, hr⟩ := hbegins
    cases k <;> exact congrArg some (List.cons.inj hr).1
  obtain ⟨w, u, hv, -, hw, rfl | ⟨t, rfl⟩⟩ := exists_plain h hl
  · -- a number or a name has no blank
    have hm : ' ' ∈ Text.upperAscii v.text := hsuffix.subset (List.mem_of_head? hspace)
    rw [hv, List.append_nil] at hm
    obtain ⟨c, hc, hcap⟩ := List.mem_map.1 hm
    have hb := (hw c hc).isBlank
    rw [← Text.isBlank_toUpper, hcap] at hb
    exact absurd hb (by decide)
  · -- a call ends with a parenthesis
    have hlast : s.getLast? = some ')' := by
      obtain ⟨r, hr⟩ := hsuffix
      rw [← List.getLast?_append_of_ne_nil r hs, hr, hv]
      simp [Text.upperAscii, List.getLast?_cons]
    exact hparen (hbegins.subset (List.mem_of_getLast? hlast))

private theorem trimEnd_text (h : v.WellFormed) (hl : v.isLiteral = false) :
    Text.trimEnd v.text = v.text := by
  obtain ⟨w, u, hv, hne, hw, rfl | ⟨t, rfl⟩⟩ := exists_plain h hl
  · obtain ⟨w', c, rfl⟩ := (List.eq_nil_or_concat' w).resolve_left hne
    rw [hv, List.append_nil, Text.trimEnd_concat (hw c (by simp)).isBlank]
  · have hparen : w ++ '(' :: (t ++ [')']) = (w ++ '(' :: t) ++ [')'] := by simp
    rw [hv, hparen, Text.trimEnd_concat (by decide)]

end ValuePhrase

namespace DefaultValue

section
variable {c : Char} {t : Text}

theorem isNumeral_eq_false (hc : Text.isNumeralDigit c = false) (hm : c ∉ ['+', '-', '.'])
    (h : c ∈ t) : isNumeral t = false := by
  simp only [List.mem_cons, List.not_mem_nil, or_false, not_or] at hm
  unfold isNumeral
  extract_lets unsigned whole rest
  have hunsigned : c ∈ unsigned := by
    unfold unsigned
    split
    · exact (List.mem_cons.1 h).resolve_left hm.1
    · exact (List.mem_cons.1 h).resolve_left hm.2.1
    · exact h
  have hrest : c ∈ rest := Text.mem_dropWhile hc hunsigned
  clear_value rest
  split
  · exact absurd hrest List.not_mem_nil
  · next places =>
    have hplaces : c ∈ places := (List.mem_cons.1 hrest).resolve_left hm.2.2
    have hall : places.all Text.isNumeralDigit = false :=
      List.all_eq_false.2 ⟨c, hplaces, by simp [hc]⟩
    rw [hall, Bool.and_false, Bool.and_false]
  · exact Bool.and_false _

theorem oneOf_eq_false {names : List String} (h : c ∈ t)
    (hn : ∀ name ∈ names, c.toLower ∉ Text.lowerAscii name) : Text.oneOf names t = false := by
  rw [Text.oneOf, List.any_eq_false]
  intro name hname hs
  have hs : Text.lowerAscii t = Text.lowerAscii name := by simpa [Text.same] using hs
  exact hn name hname (hs ▸ List.mem_map_of_mem h)

private theorem literal?_eq_none (h : 1 < (tokenize t).length) : literal? t = none := by
  unfold literal?
  split
  · next he =>
    rw [tokenize, he] at h
    exact absurd h (by simp)
  · rfl

/-- No quote follows the name at the start. -/
theorem introduced?_append {w r : Text} (hne : w ≠ []) (hw : '\'' ∉ w) (hc : c = ' ' ∨ c = '(') :
    introduced? (w ++ c :: r) = none := by
  obtain ⟨d, ds, rfl⟩ := List.exists_cons_of_ne_nil hne
  have hfold : (Text.foldChar c).isAlphanum = false := by rcases hc with rfl | rfl <;> decide
  have hquote : c ≠ '\'' := by rcases hc with rfl | rfl <;> decide
  unfold introduced?
  split
  · next cs he =>
    obtain ⟨-, rfl⟩ := List.cons.inj he
    have hlength : ((ds ++ c :: r).takeWhile fun c => (Text.foldChar c).isAlphanum).length ≤
        ds.length := by
      rw [List.takeWhile_append]
      split
      · simp [hfold]
      · exact (List.takeWhile_prefix _).length_le
    have hnext : ∀ n ≤ ds.length, (ds ++ c :: r)[n]? ≠ some '\'' := by
      intro n hn hq
      rw [List.getElem?_append] at hq
      split at hq
      · exact hw (List.mem_cons_of_mem d (List.mem_of_getElem? hq))
      · obtain rfl : n = ds.length := by omega
        simp [hquote] at hq
    simp [hnext _ hlength]
  · rfl

/-- A character that calls of the clock and their event clauses do not have. -/
structure OutsideClock (c : Char) : Prop where
  digit : Text.isNumeralDigit c = false
  fold : ∀ head ∈ ["CURRENT_TIMESTAMP", "NOW()", " ON UPDATE ", " ON INSERT "],
    Text.foldChar c ∉ Text.fold head

namespace OutsideClock

variable (hc : OutsideClock c)
include hc

private theorem mem_afterFolded? {head : String} {u : Text}
    (hh : head ∈ ["CURRENT_TIMESTAMP", "NOW()", " ON UPDATE ", " ON INSERT "])
    (hu : Text.afterFolded? head t = some u) (h : c ∈ t) : c ∈ u := by
  rw [Text.afterFolded?] at hu
  split at hu
  · next he =>
    obtain rfl := Option.some.inj hu
    rw [← List.take_append_drop head.toList.length t] at h
    refine (List.mem_append.1 h).resolve_left fun hm => hc.fold head hh ?_
    rw [← he]
    exact List.mem_map_of_mem hm
  · exact absurd hu (by simp)

private theorem mem_afterPrecision (h : c ∈ t) : c ∈ afterPrecision t := by
  have hopen : c ≠ '(' := by
    rintro rfl
    exact hc.fold "NOW()" (by simp) (by decide)
  have hclose : c ≠ ')' := by
    rintro rfl
    exact hc.fold "NOW()" (by simp) (by decide)
  unfold afterPrecision
  split
  · next cs =>
    have hcs : c ∈ cs := (List.mem_cons.1 h).resolve_left hopen
    split
    · next rest he =>
      exact (List.mem_cons.1 (he ▸ Text.mem_dropWhile hc.digit hcs)).resolve_left hclose
    · exact h
  · exact h

private theorem mem_afterClock? {u : Text} (hu : afterClock? t = some u) (h : c ∈ t) : c ∈ u := by
  rcases Option.or_eq_some_iff.1 hu with hu | ⟨-, hu⟩
  · obtain ⟨v, hv, rfl⟩ := Option.map_eq_some_iff.1 hu
    exact hc.mem_afterPrecision (hc.mem_afterFolded? (by simp) hv h)
  · exact hc.mem_afterFolded? (by simp) hu h

private theorem mem_afterEvent? {u : Text} (hu : afterEvent? t = some u) (h : c ∈ t) : c ∈ u := by
  rcases Option.or_eq_some_iff.1 hu with hu | ⟨-, hu⟩
  · exact hc.mem_afterFolded? (by simp) hu h
  · exact hc.mem_afterFolded? (by simp) hu h

theorem not_mem (h : isClock t = true) : c ∉ t := by
  intro hm
  unfold isClock at h
  split at h
  · next he => exact List.not_mem_nil (hc.mem_afterClock? he hm)
  · next rest he =>
    have hrest := hc.mem_afterClock? he hm
    obtain ⟨u, hu, hclock⟩ := Option.bind_eq_some_iff.1 (beq_iff_eq.1 h)
    exact List.not_mem_nil (hc.mem_afterClock? hclock (hc.mem_afterEvent? hu hrest))
  · exact absurd h (by simp)

end OutsideClock

theorem outsideClock_of_isQuote (h : Token.isQuote c = true) : OutsideClock c := by
  simp only [Token.isQuote, Bool.or_eq_true, beq_iff_eq] at h
  rcases h with (rfl | rfl) | rfl <;> exact ⟨by decide, by decide⟩

private theorem upper_of_isAscii (h : ∀ d ∈ t, Text.isAscii d = true) :
    Text.upper t = Text.upperAscii t := by
  induction t with
  | nil => rfl
  | cons d t ih =>
    have hd : Text.upperChar d = [d.toUpper] := if_pos (h d List.mem_cons_self)
    rw [Text.upper, List.flatMap_cons, hd, Text.upperAscii_cons,
      ← ih fun e he => h e (List.mem_cons_of_mem d he)]
    rfl

private theorem lastCast?_eq_none {t : Text} (h : Text.holds "::" t = false) (inQuote : Bool) :
    lastCast? inQuote t = none := by
  fun_induction lastCast? inQuote t with
  | case1 => rfl
  | case2 _ cs ih =>
    rw [Text.holds_cons, Bool.or_eq_false_iff] at h
    rw [ih h.2, Option.map_none]
  | case6 _ c cs _ _ ih =>
    rw [Text.holds_cons, Bool.or_eq_false_iff] at h
    rw [ih h.2, Option.map_none]
  | case3 cs => simp [Text.holds_cons] at h
  | case4 _ cs => simp [Text.holds_cons] at h
  | case5 _ cs => simp [Text.holds_cons] at h

private theorem stripCasts_eq_self {t : Text} (htrim : Text.trim t = t)
    (h : Text.holds "::" t = false) : stripCasts t = t := by
  rw [stripCasts, htrim, withoutCasts]
  split
  · rfl
  · next he => exact absurd he (by simp [lastCast?_eq_none h])

end

end DefaultValue

namespace DefaultExpression

/-- An expression with event clauses of which the normal form keeps every token: blanks are
single spaces, nothing mentions NULL, no cast is left to strip, and a call of the clock is written
in ASCII. -/
structure Regular (e : DefaultExpression) : Prop where
  wellFormed : e.WellFormed
  events : e.events ≠ []
  collapsed : Text.collapsed e.text = e.text
  no_null : Text.holds "NULL" (Text.upper e.text) = false
  no_nextval : Text.holds "nextval" (Text.lower e.text) = false
  no_cast : Text.holds "::" e.text = false
  ascii : DefaultValue.isClock e.text = true → ∀ c ∈ e.text, Text.isAscii c = true

variable {e : DefaultExpression}

theorem exists_event (h : e.events ≠ []) : ∃ p ∈ e.events.head?, ∃ r,
    e.text = e.head.text ++ (p.kind.mark ++ r) := by
  obtain ⟨p, ps, hp⟩ := List.exists_cons_of_ne_nil h
  refine ⟨p, by rw [hp]; rfl, p.value.text ++ ps.flatMap EventPhrase.text, ?_⟩
  rw [text, hp, List.flatMap_cons, EventPhrase.text, List.append_assoc]

theorem mem_text_of_mem_mark (h : e.events ≠ []) {c : Char} (hc : ∀ k : EventKind, c ∈ k.mark) :
    c ∈ e.text := by
  obtain ⟨p, -, r, ht⟩ := exists_event h
  simp [ht, hc p.kind]

private theorem exists_quote (hl : e.head.isLiteral = true) : ∃ t, e.text = '\'' :: t := by
  cases hv : e.head with
  | literal value => exact ⟨_, by rw [text, hv]; rfl⟩
  | _ => simp [hv, ValuePhrase.isLiteral] at hl

/-- An expression that does not begin with a literal begins with a number or a name. -/
theorem exists_plain (h : e.WellFormed) (he : e.events ≠ []) (hl : e.head.isLiteral = false) :
    ∃ d w c r, e.text = (d :: w) ++ c :: r ∧ (∀ a ∈ d :: w, ValuePhrase.IsPlain a) ∧
      (c = ' ' ∨ c = '(') := by
  obtain ⟨p, -, r, ht⟩ := exists_event he
  obtain ⟨w, u, hv, hne, hw, hu⟩ := ValuePhrase.exists_plain h.head hl
  obtain ⟨d, w, rfl⟩ := List.exists_cons_of_ne_nil hne
  rcases hu with rfl | ⟨t, rfl⟩
  · refine ⟨d, w, ' ', p.kind.mark.tail ++ r, ?_, hw, .inl rfl⟩
    rw [ht, hv, List.append_nil]
    cases p.kind <;> rfl
  · exact ⟨d, w, '(', t ++ [')'] ++ (p.kind.mark ++ r), by simp [ht, hv], hw, .inr rfl⟩

/-- What is kept of the expression: calls of the clock are in capitals. -/
def stored (e : DefaultExpression) : Text :=
  if DefaultValue.isClock e.text then Text.upperAscii e.text else e.text

namespace Regular

variable (h : e.Regular)
include h

theorem trim_text : Text.trim e.text = e.text := by
  rw [← h.collapsed]
  exact Text.trim_join _ fun w hw => Text.solid_of_mem_words hw

private theorem literal?_text : DefaultValue.literal? e.text = none := by
  have htokens := tokens_sourceFromToken (apart_lexemes h.wellFormed).clear
  have hlength := congrArg List.length htokens
  rw [sourceFromToken_lexemes, List.length_map, List.length_map] at hlength
  have hhead : e.head.lexemes ≠ [] := by cases e.head <;> simp [ValuePhrase.lexemes]
  obtain ⟨p, ps, hp⟩ := List.exists_cons_of_ne_nil h.events
  refine DefaultValue.literal?_eq_none ?_
  rw [hlength, lexemes, hp, List.flatMap_cons, List.length_append, List.length_append]
  have := List.length_pos_of_ne_nil hhead
  simp only [EventPhrase.lexemes, List.length_cons]
  omega

private theorem isNumeral_text : DefaultValue.isNumeral e.text = false := by
  have hm : ' ' ∈ e.text := mem_text_of_mem_mark h.events (by intro k; cases k <;> decide)
  exact DefaultValue.isNumeral_eq_false (by decide) (by decide) hm

private theorem oneOf_text : Text.oneOf ["true", "false"] e.text = false := by
  have hm : ' ' ∈ e.text := mem_text_of_mem_mark h.events (by intro k; cases k <;> decide)
  exact DefaultValue.oneOf_eq_false hm (by decide)

private theorem date_text :
    Calendar.isDate e.text = false ∧ Calendar.isDateTime e.text = false := by
  have hm : 'O' ∈ e.text := mem_text_of_mem_mark h.events (by intro k; cases k <;> decide)
  have hforeign : Calendar.Foreign 'O' := ⟨by decide, by decide, by decide⟩
  exact ⟨hforeign.isDate_eq_false hm, hforeign.isDateTime_eq_false hm⟩

private theorem normalize_literal (hl : e.head.isLiteral = true) :
    DefaultValue.normalize e.text = some e.stored := by
  obtain ⟨t, ht⟩ := exists_quote hl
  have hintroduced : DefaultValue.introduced? e.text = none := by rw [ht]; rfl
  have hclock : DefaultValue.isClock e.text = false := by rw [ht]; exact DefaultPhrase.isClock_quote t
  have hquoted : (e.text.head? == some '\'') = true ∧ e.text.isEmpty = false := by
    rw [ht]
    exact ⟨rfl, rfl⟩
  rw [DefaultValue.normalize, h.trim_text, hintroduced, Option.getD_none,
    DefaultValue.normalizePlain, h.collapsed, h.trim_text, h.literal?_text, stored]
  simp only [h.isNumeral_text, hclock, h.oneOf_text, hquoted]
  rfl

private theorem normalize_plain (hl : e.head.isLiteral = false) :
    DefaultValue.normalize e.text = some e.stored := by
  obtain ⟨d, w, c, r, ht, hw, hc⟩ := exists_plain h.wellFormed h.events hl
  have hquote : ∀ q, Token.isQuote q = true → q ∉ d :: w :=
    fun q hq hm => absurd hq (by simp [(hw q hm).isQuote])
  have hintroduced : DefaultValue.introduced? e.text = none := by
    rw [ht]
    exact DefaultValue.introduced?_append (by simp) (hquote '\'' rfl) hc
  have hsingle : (e.text.head? == some '\'') = false := by
    have hd : d ≠ '\'' := fun hd => hquote '\'' rfl (hd ▸ List.mem_cons_self)
    rw [ht]
    simpa using hd
  have hdouble : (e.text.head? == some '\"') = false := by
    have hd : d ≠ '\"' := fun hd => hquote '\"' rfl (hd ▸ List.mem_cons_self)
    rw [ht]
    simpa using hd
  have hempty : e.text.isEmpty = false := by rw [ht]; rfl
  rw [DefaultValue.normalize, h.trim_text, hintroduced, Option.getD_none,
    DefaultValue.normalizePlain, h.collapsed, h.trim_text, h.literal?_text, stored]
  simp only [h.isNumeral_text, h.oneOf_text, hsingle, hdouble, hempty, h.no_null, h.date_text]
  by_cases hclock : DefaultValue.isClock e.text = true
  · simp [hclock, DefaultValue.upper_of_isAscii (h.ascii hclock)]
  · simp [hclock]

/-- The normal form has the tokens of the expression. -/
theorem normalize_text : DefaultValue.normalize e.text = some e.stored := by
  cases hl : e.head.isLiteral with
  | true => exact h.normalize_literal hl
  | false => exact h.normalize_plain hl

private theorem stripCasts_stored : DefaultValue.stripCasts e.stored = e.stored := by
  have hcolon : ∀ c : Char, c.toUpper = ':' ↔ c = ':' := Text.toUpper_eq_iff (by decide)
  have hcast : Text.holds "::" (Text.upperAscii e.text) = false := by
    rw [Text.holds_upperAscii (by simpa using hcolon), h.no_cast]
  unfold stored
  split
  · refine DefaultValue.stripCasts_eq_self ?_ hcast
    rw [Text.trim_upperAscii, h.trim_text]
  · exact DefaultValue.stripCasts_eq_self h.trim_text h.no_cast

end Regular

/-- The first mark is that of the first event clause: there is none in the value before it, and
an update clause does not follow an insertion clause, behind which it would be looked for first. -/
structure Marked (e : DefaultExpression) : Prop where
  head : ∀ k : EventKind, Text.holds k.mark (Text.upperAscii e.head.text) = false
  first : (∀ p ∈ e.events.head?, p.kind = .update) ∨
    Text.holds EventKind.update.mark (Text.upperAscii e.text) = false

private theorem upperAscii_mark (k : EventKind) : Text.upperAscii k.mark = k.mark := by
  cases k <;> decide

private theorem Marked.cutAt? (h : e.WellFormed) (he : e.events ≠ [])
    (hl : e.head.isLiteral = false) (hm : e.Marked) :
    ∃ r, (Text.cutAt? " ON UPDATE " (Text.upperAscii e.text)).or
        (Text.cutAt? " ON INSERT " (Text.upperAscii e.text)) =
      some (Text.upperAscii e.head.text, r) := by
  obtain ⟨p, hp, r, ht⟩ := exists_event he
  have hcut : Text.cutAt? p.kind.mark (Text.upperAscii e.text) =
      some (Text.upperAscii e.head.text, p.kind.mark ++ Text.upperAscii r) := by
    rw [ht, Text.upperAscii_append, Text.upperAscii_append, upperAscii_mark]
    exact Text.cutAt?_append (by cases p.kind <;> decide) (hm.head p.kind)
      (fun s hs => ValuePhrase.not_prefix_mark h.head hl p.kind hs) _
  refine ⟨p.kind.mark ++ Text.upperAscii r, Option.or_eq_some_iff.2 ?_⟩
  cases hk : p.kind with
  | update =>
    rw [hk] at hcut
    exact .inl hcut
  | insert =>
    have hnone : Text.cutAt? " ON UPDATE " (Text.upperAscii e.text) = none := by
      rcases hm.first with hf | hf
      · exact absurd (hf p hp) (by simp [hk])
      · exact Option.isNone_iff_eq_none.1 (Option.isSome_eq_false_iff.1 hf)
    rw [hk] at hcut
    exact .inr ⟨hnone, hcut⟩

/-- The head of what is kept. -/
def storedHead (e : DefaultExpression) : Text :=
  if DefaultValue.isClock e.text then Text.upperAscii e.head.text else e.head.text

private theorem stored_eq_append (he : e.events ≠ []) : ∃ r, e.stored = e.storedHead ++ r := by
  obtain ⟨p, -, r, ht⟩ := exists_event he
  unfold stored storedHead
  split
  · exact ⟨_, by rw [ht, Text.upperAscii_append]⟩
  · exact ⟨_, ht⟩

private theorem upperAscii_stored (e : DefaultExpression) :
    Text.upperAscii e.stored = Text.upperAscii e.text := by
  unfold stored
  split
  · exact Text.upperAscii_upperAscii _
  · rfl

private theorem trimEnd_storedHead (h : e.WellFormed) (hl : e.head.isLiteral = false) :
    Text.trimEnd e.storedHead = e.storedHead := by
  have htrim := ValuePhrase.trimEnd_text h.head hl
  unfold storedHead
  split
  · rw [Text.trimEnd_upperAscii, htrim]
  · exact htrim

private theorem head?_stored (h : e.WellFormed) (he : e.events ≠ [])
    (hl : e.head.isLiteral = false) : e.stored.head? ≠ some '\'' := by
  obtain ⟨d, w, c, r, ht, hw, -⟩ := exists_plain h he hl
  have hd : d ≠ '\'' := by
    rintro rfl
    exact absurd (hw '\'' List.mem_cons_self).isQuote (by decide)
  unfold stored
  split
  · rw [Ne, Text.head?_upperAscii (Token.eq_quote_toUpper rfl), ht]
    simpa using hd
  · rw [ht]
    simpa using hd

/-- Behind a value that is no literal the event clauses are cut off. -/
theorem splitEvent_stored (h : e.Regular) (hl : e.head.isLiteral = false) (hm : e.Marked) :
    ∃ clause, DefaultValue.splitEvent e.stored = (e.storedHead, some clause) := by
  obtain ⟨r, hcut⟩ := hm.cutAt? h.wellFormed h.events hl
  obtain ⟨tail, htail⟩ := stored_eq_append h.events
  have hlength : (Text.upperAscii e.head.text).length = e.storedHead.length := by
    unfold storedHead
    split
    · rfl
    · exact Text.length_upperAscii _
  have htake : e.stored.take e.storedHead.length = e.storedHead := by rw [htail, List.take_left]
  refine ⟨Text.trimStart (e.stored.drop e.storedHead.length), ?_⟩
  rw [DefaultValue.splitEvent, if_neg (head?_stored h.wellFormed h.events hl), upperAscii_stored]
  simp only [hcut, hlength, htake, trimEnd_storedHead h.wellFormed hl]

/-- The head has its tokens, up to the case of words. -/
theorem tokens_storedHead (h : e.WellFormed) :
    (tokenize e.storedHead).map (·.token.wordUpperAscii) =
      e.head.lexemes.map (·.token.wordUpperAscii) := by
  have hclear := (ValuePhrase.apart_lexemes h.head).clear
  have htokens := tokens_sourceFromToken hclear
  have hsource : sourceFromToken e.head.lexemes = e.head.text := by
    simpa using e.head.sourceFromToken_lexemes []
  rw [hsource] at htokens
  have hmap := fun f : Token → Token => congrArg (List.map f) htokens
  simp only [List.map_map, Function.comp_def] at hmap
  unfold storedHead
  split
  · next hclock =>
    have hquote : ∀ c ∈ source e.head.lexemes, Token.isQuote c = false := by
      intro c hc
      by_contra hq
      have hout := DefaultValue.outsideClock_of_isQuote (Bool.not_eq_false _ ▸ hq)
      rw [ValuePhrase.source_lexemes] at hc
      rcases List.mem_cons.1 hc with rfl | hc
      · exact absurd hq (by decide)
      · exact hout.not_mem hclock (List.mem_append_left _ hc)
    have hcapital := hclear.tokens_upperAscii hquote
    rw [List.map_map] at hcapital
    rw [tokenize_upperAscii, List.map_map]
    exact (hmap fun k => k.upperAscii.wordUpperAscii).trans hcapital
  · exact hmap Token.wordUpperAscii

/-- PostgreSQL gets the value without its event clauses, and SQLite no default. -/
theorem defaultValue?_stored (h : e.Regular) (hl : e.head.isLiteral = false) (hm : e.Marked) :
    Dialect.postgres.defaultValue? (DefaultValue.stripCasts e.stored) = some e.storedHead ∧
      Dialect.sqlite.defaultValue? (DefaultValue.stripCasts e.stored) = none := by
  obtain ⟨clause, hsplit⟩ := splitEvent_stored h hl hm
  rw [h.stripCasts_stored]
  constructor
  · change some (DefaultValue.splitEvent e.stored).1 = _
    rw [hsplit]
  · change Dialect.sqliteDefault e.stored = none
    rw [Dialect.sqliteDefault, hsplit]
    rfl

/-- A literal keeps its event clauses in every dialect. -/
theorem defaultValue?_literal (h : e.Regular) (hl : e.head.isLiteral = true) (d : Dialect) :
    d.defaultValue? (DefaultValue.stripCasts e.stored) = some e.text := by
  obtain ⟨t, ht⟩ := exists_quote hl
  have hstored : e.stored = e.text := by
    rw [stored, ht, DefaultPhrase.isClock_quote]
    rfl
  rw [h.stripCasts_stored, hstored, ht]
  cases d with
  | sqlite => exact DefaultPhrase.sqliteDefault_quote t
  | _ => rfl

example : Dialect.sqlite.defaultValue? "'new' ON UPDATE NOW()" =
    some "'new' ON UPDATE NOW()".toList := by
  decide

/-- No event clause reaches PostgreSQL and SQLite exactly if the value is no literal. -/
theorem defaultValue?_event (h : e.Regular) (hm : e.head.isLiteral = false → e.Marked) :
    ∃ v, Fragment.read (tokenize e.definition) =
        { result := .ok (.column { name := "c", typeName := "TIMESTAMP",
                                   defaultValue := some v } false) } ∧
      (((∃ head, Dialect.postgres.defaultValue? (DefaultValue.stripCasts v) = some head ∧
          (tokenize head).map (·.token.wordUpperAscii) =
            e.head.lexemes.map (·.token.wordUpperAscii)) ∧
        Dialect.sqlite.defaultValue? (DefaultValue.stripCasts v) = none) ↔
        e.head.isLiteral = false) := by
  refine ⟨e.stored, ?_, fun hstored => ?_, fun hl => ?_⟩
  · rw [read_definition h.wellFormed h.no_nextval, h.normalize_text]
  · by_contra hl
    have hsqlite := defaultValue?_literal h (by simpa using hl) .sqlite
    rw [hstored.2] at hsqlite
    exact absurd hsqlite (by simp)
  · obtain ⟨hpostgres, hsqlite⟩ := defaultValue?_stored h hl (hm hl)
    exact ⟨⟨e.storedHead, hpostgres, tokens_storedHead h.wellFormed⟩, hsqlite⟩

/-- A call of the clock is in capitals once it is stored. -/
theorem defaultValue?_event_clock :
    let e : DefaultExpression :=
      ⟨.word "current_timestamp", [⟨.update, .call "now" []⟩]⟩
    e.Regular ∧ (e.head.isLiteral = false → e.Marked) ∧
      ∃ v, Fragment.read (tokenize e.definition) =
          { result := .ok (.column { name := "c", typeName := "TIMESTAMP",
                                     defaultValue := some v } false) } ∧
        (((∃ head, Dialect.postgres.defaultValue? (DefaultValue.stripCasts v) = some head ∧
            (tokenize head).map (·.token.wordUpperAscii) =
              e.head.lexemes.map (·.token.wordUpperAscii)) ∧
          Dialect.sqlite.defaultValue? (DefaultValue.stripCasts v) = none) ↔
          e.head.isLiteral = false) := by
  intro e
  have hregular : e.Regular := by
    have hascii : e.text.all Text.isAscii = true := by decide +kernel
    refine ⟨⟨⟨by decide, by decide⟩, ?_⟩, by simp [e], by decide +kernel, by decide +kernel,
      by decide +kernel, by decide +kernel, fun _ => List.all_eq_true.1 hascii⟩
    simp only [e, List.forall_mem_cons]
    exact ⟨⟨⟨by decide, by decide⟩, by simp⟩, by simp⟩
  have hmarked : e.Marked := by
    refine ⟨fun k => ?_, .inl (by simp [e])⟩
    cases k <;> decide +kernel
  exact ⟨hregular, fun _ => hmarked, defaultValue?_event hregular fun _ => hmarked⟩

/-- The update clause is found first, and the insertion clause before it stays in the value. -/
theorem defaultValue?_insert_update :
    let e : DefaultExpression :=
      ⟨.word "CURRENT_TIMESTAMP",
        [⟨.insert, .word "CURRENT_TIMESTAMP"⟩, ⟨.update, .word "CURRENT_TIMESTAMP"⟩]⟩
    e.WellFormed ∧
      Fragment.read (tokenize e.definition) =
        { result := .ok (.column { name := "c", typeName := "TIMESTAMP",
                                   defaultValue := some e.text } false) } ∧
      ∀ head, Dialect.postgres.defaultValue? (DefaultValue.stripCasts e.text) = some head →
        (tokenize head).map (·.token.wordUpperAscii) ≠
          e.head.lexemes.map (·.token.wordUpperAscii) := by
  intro e
  have hvalue : ValuePhrase.WellFormed (.word "CURRENT_TIMESTAMP") := ⟨by decide, by decide⟩
  have hwell : e.WellFormed := ⟨hvalue, by simpa [e] using hvalue⟩
  have hnormal : DefaultValue.normalize e.text = some e.text := by decide +kernel
  have hpostgres : Dialect.postgres.defaultValue? (DefaultValue.stripCasts e.text) =
      some "CURRENT_TIMESTAMP ON INSERT CURRENT_TIMESTAMP".toList := by decide +kernel
  refine ⟨hwell, ?_, fun head hhead => ?_⟩
  · rw [read_definition hwell (by decide +kernel), hnormal]
  · rw [hpostgres, Option.some.injEq] at hhead
    subst hhead
    decide +kernel

end DefaultExpression

end TableDialects
