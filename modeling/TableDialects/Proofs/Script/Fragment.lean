import TableDialects.Proofs.Script.Column

/-!
# Fragments of prepared bodies

Preparation keeps the name and the type of a column when the type is the only phrase among the
lexemes that tell them.
-/
namespace TableDialects

namespace ColumnType

/-- The type that the vocabulary has for the plain name. -/
theorem ofSource?_of_plainName {t : Text} {w : String} {f : Qualifier → ColumnType}
    (ht : plainName t = w.toList)
    (hf : vocabulary.find? (fun e => e.1.toList == w.toList) = some (w, f)) (length : Text)
    (values : List Text) : ofSource? t length values = some (f ⟨Text.trim length, values⟩) := by
  rw [ofSource?, ht, hf, Option.map_some]

end ColumnType

namespace Column

open Lexeme

/-- A type name tells the same type in any case. -/
theorem typeFrom?_of_same {u v : Text} (h : Text.same u v = true) (ls : List Lexeme) :
    typeFrom? u ls = typeFrom? v ls := by
  have hsame : Text.lowerAscii u = Text.lowerAscii v := by simpa [Text.same] using h
  have hzone : zoneAfter? u (ls.drop (leadingGroup ls)) =
      zoneAfter? v (ls.drop (leadingGroup ls)) := by
    rw [zoneAfter?, ← Text.lower_lowerAscii, hsame, Text.lower_lowerAscii, zoneAfter?]
  have hlist : ∀ t, ColumnType.isEnumeration (u ++ t) = ColumnType.isEnumeration (v ++ t) := by
    intro t
    rw [ColumnType.isEnumeration, ColumnType.plainName_append t h, ColumnType.isEnumeration]
  rw [typeFrom?, typeFrom?, hzone, hlist]
  exact ColumnType.ofSource?_append h _ _ _

/-- The type of a name that no zone goes on with and no list of values belongs to. -/
theorem typeFrom?_of_plain {t : Text}
    (hzone : Text.oneOf ["time", "timestamp"] (Text.lower t) = false)
    (hlist : ColumnType.isEnumeration t = false) (ls : List Lexeme) :
    typeFrom? t ls = ColumnType.ofSource? t (qualifier ls) [] := by
  have hnone : zoneAfter? t (ls.drop (leadingGroup ls)) = none := by
    rw [zoneAfter?, hzone, if_neg Bool.false_ne_true]
  rw [typeFrom?, hnone]
  simp [hlist]

private theorem typeFrom?_timestamptz (ls : List Lexeme) :
    typeFrom? "timestamptz" ls = some (.timestamp true) := by
  rw [typeFrom?_of_plain (by decide +kernel) (by decide +kernel)]
  exact ColumnType.ofSource?_of_plainName (w := "timestamptz") (by decide +kernel) rfl _ _

private theorem typeFrom?_timestamp {ls : List Lexeme} {z : Text}
    (h : zone? (ls.drop (leadingGroup ls)) = some z) :
    typeFrom? "timestamp" ls = ColumnType.ofSource? ("timestamp".toList ++ z) (qualifier ls)
      (if ColumnType.isEnumeration ("timestamp".toList ++ z) then stringLiterals (qualifier ls)
        else []) := by
  have hzone : zoneAfter? "timestamp" (ls.drop (leadingGroup ls)) = some z := by
    rw [zoneAfter?, h]
    rfl
  rw [typeFrom?, hzone]
  rfl

private theorem typeFrom?_timestamp_of_none {ls : List Lexeme}
    (h : zone? (ls.drop (leadingGroup ls)) = none) :
    typeFrom? "timestamp" ls = some (.timestamp false) := by
  have hzone : zoneAfter? "timestamp" (ls.drop (leadingGroup ls)) = none := by
    rw [zoneAfter?, h, ite_self]
  rw [typeFrom?, hzone]
  rfl

private theorem typeFrom?_varying (ls : List Lexeme) :
    typeFrom? "character varying" ls = typeFrom? "varchar" ls := by
  rw [typeFrom?_of_plain (by decide +kernel) (by decide +kernel),
    typeFrom?_of_plain (by decide +kernel) (by decide +kernel),
    ColumnType.ofSource?_of_plainName (w := "character varying") (by decide +kernel) rfl,
    ColumnType.ofSource?_of_plainName (w := "varchar") (by decide +kernel) rfl]

end Column

namespace Lexeme

section
variable {ls ls' : List Lexeme}

/-- No phrase and no backtick stands in the parentheses at the start. -/
def PlainGroup (ls : List Lexeme) : Prop :=
  ∀ i < leadingGroup ls, beginsPhrase (ls.drop i) = false ∧ holdsTick (ls.drop i) = false

instance (ls : List Lexeme) : Decidable (PlainGroup ls) :=
  inferInstanceAs (Decidable (∀ i < leadingGroup ls, _ ∧ _))

private theorem Rewritten.typeFrom? (h : Prepared Steady ls ls') (hp : Placed ls)
    (hg : PlainGroup ls) (t : Text) : Column.typeFrom? t ls' = Column.typeFrom? t ls := by
  have hzone := (h.drop_leadingGroup hp).zone? (hp.of_suffix (List.drop_suffix _ _))
  have hqualifier := h.qualifier hp (fun i hi => (hg i hi).1) fun i hi => (hg i hi).2
  rw [Column.typeFrom?, Column.typeFrom?, hqualifier, Column.zoneAfter?, Column.zoneAfter?, hzone]

private theorem typeAfter?_of_typeName {t v : Text} {r : List Lexeme}
    (h : Fragment.typeName? ls = some (t, r)) (hv : Text.same t v = true)
    (hknown : ColumnType.isRecognized v = true) :
    Fragment.typeAfter? ls = some (Column.typeFrom? v r) := by
  rw [Fragment.typeAfter?, h, Option.filter_some, if_pos ((ColumnType.isRecognized_of_same hv).trans hknown),
    Option.map_some, Column.typeFrom?_of_same hv]

private theorem typeName?_of_isWord {l : Lexeme} {w : String} (hl : l.token.isWord w = true)
    (hw : Text.same w.toList "double".toList = false ∧
      Text.same w.toList "character".toList = false)
    (ls : List Lexeme) :
    ∃ t, Fragment.typeName? (l :: ls) = some (t, ls) ∧ Text.same t w = true := by
  obtain ⟨g, u, k⟩ := l
  cases k with
  | word t =>
    have hdouble := (Token.isWord_of_isWord (w := "double") hl).trans hw.1
    have hcharacter := (Token.isWord_of_isWord (w := "character") hl).trans hw.2
    simp only [Token.isWord] at hdouble hcharacter
    refine ⟨t, ?_, hl⟩
    rw [Fragment.typeName?_cons, Token.word?, Option.map_some, hdouble, hcharacter]
    rfl
  | _ => simp [Token.isWord] at hl

private theorem typeName?_varying {l m : Lexeme} (hl : l.token.isWord "character" = true)
    (hm : m.token.isWord "varying" = true) (ls : List Lexeme) :
    ∃ t, Fragment.typeName? (l :: m :: ls) = some (t, ls) ∧
      Text.same t "character varying" = true := by
  obtain ⟨g, u, k⟩ := l
  obtain ⟨g', u', k'⟩ := m
  cases k with
  | word t =>
    cases k' with
    | word t' =>
      simp only [Token.isWord] at hl hm
      refine ⟨t ++ ' ' :: t', ?_, ?_⟩
      · rw [Fragment.typeName?, hl, hm, Bool.and_self, Bool.or_true, if_pos rfl]
      · simp only [Text.same, beq_iff_eq, Text.lowerAscii] at hl hm ⊢
        rw [List.map_append, List.map_cons, hl, hm]
        rfl
    | _ => simp [Token.isWord] at hm
  | _ => simp [Token.isWord] at hl

private theorem leadingGroup_of_isWord {l : Lexeme} {w : String} (hl : l.token.isWord w = true) :
    leadingGroup (l :: ls) = 0 := by
  refine if_neg fun ho => ?_
  simp only [List.head?_cons, Option.map_some, Option.some.injEq] at ho
  simp [ho, Token.isWord] at hl

/-- The type of a time stamp whose zone is spelled out. -/
theorem typeAfter?_zoned {l : Lexeme} {w : String} (hl : l.token.isWord "timestamp" = true)
    (h : spells [w, "time", "zone"] ls = true) (hw : w = "with" ∨ w = "without") :
    Fragment.typeAfter? (l :: ls) = some (some (.timestamp (w = "with"))) := by
  obtain ⟨t, ht, hsame⟩ := typeName?_of_isWord hl (by decide) ls
  obtain ⟨m, us, rfl, hm, hus⟩ := spells_cons h
  obtain ⟨n, vs, rfl, hn, hvs⟩ := spells_cons hus
  obtain ⟨o, xs, rfl, ho, -⟩ := spells_cons hvs
  rw [typeAfter?_of_typeName ht hsame (by decide)]
  have hdrop : (m :: n :: o :: xs).drop (leadingGroup (m :: n :: o :: xs)) = m :: n :: o :: xs := by
    rw [leadingGroup_of_isWord hm, List.drop_zero]
  have hthen : nextIs "time" ((m :: n :: o :: xs).drop 1) &&
      nextIs "zone" ((m :: n :: o :: xs).drop 2) := by
    simp [nextIs, hn, ho]
  rcases hw with rfl | rfl
  · have hwith : nextIs "with" (m :: n :: o :: xs) = true := hm
    have hzone : Column.zone? (m :: n :: o :: xs) = some " with time zone".toList := by
      rw [zone?_eq, if_pos hthen, if_pos hwith]
    rw [Column.typeFrom?_timestamp (hdrop ▸ hzone)]
    rfl
  · have hwith : nextIs "with" (m :: n :: o :: xs) = false :=
      (Token.isWord_of_isWord hm).trans (by decide)
    have hwithout : nextIs "without" (m :: n :: o :: xs) = true := hm
    have hzone : Column.zone? (m :: n :: o :: xs) = some " without time zone".toList := by
      rw [zone?_eq, if_pos hthen, if_neg (by simp [hwith]), if_pos hwithout]
    rw [Column.typeFrom?_timestamp (hdrop ▸ hzone)]
    rfl

/-- Preparation keeps the type, although its name may become one word. -/
theorem Rewritten.typeAfter? (h : Prepared Steady ls ls') (hp : Placed ls)
    (hc : beginsCollation ls = false)
    (hgroup : ∀ t r, Fragment.typeName? ls = some (t, r) → PlainGroup r)
    (hzone : spells ["timestamp", "without", "time", "zone"] ls = true →
      Column.zone? ((ls.drop 4).drop (leadingGroup (ls.drop 4))) = none) :
    Fragment.typeAfter? ls' = Fragment.typeAfter? ls := by
  cases h with
  | nil => rfl
  | @keep l l' ls ls' hl h =>
    have hname := h.sameTypeName hp hl
    rw [Fragment.typeAfter?, Fragment.typeAfter?]
    generalize he : Fragment.typeName? (l :: ls) = p, Fragment.typeName? (l' :: ls') = q at hname
    cases hname with
    | none => rfl
    | @some p q hr =>
      obtain ⟨hname, hrest, hplaced⟩ := hr
      obtain ⟨t, r⟩ := p
      obtain ⟨t', r'⟩ := q
      obtain rfl : t' = t := hname
      rw [Option.filter_some, Option.filter_some]
      split
      · exact congrArg some (hrest.typeFrom? hplaced (hgroup _ _ he) _)
      · rfl
  | @type p l run ls ls' g hq hspells hlen hg h =>
    have hplaced : Placed ls := hp.of_suffix (List.suffix_append (l :: run) ls)
    have hnew : ∀ w : String, (Text.same w.toList "double".toList = false ∧
        Text.same w.toList "character".toList = false) → ColumnType.isRecognized w = true →
        Fragment.typeAfter? (⟨g, w.toList, .word w.toList⟩ :: ls') =
          some (Column.typeFrom? w ls') := by
      intro w hw hknown
      obtain ⟨t, ht, hsame⟩ := typeName?_of_isWord
        (l := ⟨g, w.toList, .word w.toList⟩) (Token.isWord_self w) hw ls'
      exact typeAfter?_of_typeName ht hsame hknown
    have hw := spells_append hspells ls
    simp only [typePhrases, List.mem_cons, List.not_mem_nil, or_false] at hq
    rcases hq with rfl | rfl | rfl
    · rw [hnew "timestamptz" (by decide) (by decide), Column.typeFrom?_timestamptz]
      obtain ⟨m, t, he, hm, ht⟩ := spells_cons hw
      rw [he, typeAfter?_zoned hm ht (.inl rfl)]
      rfl
    · rw [hnew "timestamp" (by decide) (by decide)]
      have hnone := hzone hw
      have hdrop : (l :: run ++ ls).drop 4 = ls := List.drop_left' hlen
      rw [hdrop] at hnone
      have hkept := (h.drop_leadingGroup hplaced).zone? (hplaced.of_suffix (List.drop_suffix _ _))
      rw [Column.typeFrom?_timestamp_of_none (hkept.trans hnone)]
      obtain ⟨m, t, he, hm, ht⟩ := spells_cons hw
      rw [he, typeAfter?_zoned hm ht (.inr rfl)]
      rfl
    · rw [hnew "varchar" (by decide) (by decide)]
      obtain ⟨m, t, he, hm, ht⟩ := spells_cons hspells
      obtain ⟨n, u, rfl, hn, -⟩ := spells_cons ht
      obtain ⟨rfl, rfl⟩ := List.cons.inj he
      obtain rfl : u = [] := List.eq_nil_of_length_eq_zero (by simpa using hlen)
      obtain ⟨w, hw, hsame⟩ := typeName?_varying hm hn ls
      have hplain := hgroup w ls hw
      rw [h.typeFrom? hplaced hplain, ← Column.typeFrom?_varying]
      exact (typeAfter?_of_typeName hw hsame (by decide)).symm
  | collation _ hbegins => exact absurd (hc.symm.trans hbegins) (by simp)

/-- Preparation keeps the tokens in front of the first phrase. -/
theorem Rewritten.getElem?_token (h : Prepared Steady ls ls') {i : Nat}
    (hphrase : ∀ j ≤ i, beginsPhrase (ls.drop j) = false) :
    ls'[i]?.map (·.token) = ls[i]?.map (·.token) := by
  induction i generalizing ls ls' with
  | zero =>
    cases ls with
    | nil => rw [h.eq_nil]
    | cons l t =>
      obtain ⟨l', t', rfl, hl, -⟩ := h.cons_of_not_phrase (hphrase 0 (Nat.le_refl 0))
      simp [hl.token]
  | succ i ih =>
    cases ls with
    | nil => rw [h.eq_nil]
    | cons l t =>
      obtain ⟨l', t', rfl, -, ht⟩ := h.cons_of_not_phrase (hphrase 0 (Nat.zero_le _))
      exact ih ht fun j hj => hphrase (j + 1) (Nat.succ_le_succ hj)

/-- The keywords after which the tokens decide whether a fragment is an index. -/
def indexWords : List String := ["CONSTRAINT", "KEY", "INDEX", "FULLTEXT", "SPATIAL"]

/-- The fragment with a first lexeme that is not between backticks. -/
def bareHead (f : List Lexeme) : List Lexeme :=
  f.modifyHead fun l => { l with text := [] }

/-- The only phrase among the lexemes that tell a name and a type is a type, and no backticks tell
the name of a column from the keyword of an index. -/
structure Settled (f : List Lexeme) : Prop where
  first : beginsPhrase f = false
  type : beginsCollation f.tail = false
  index : f.head?.any (·.token.isOneOf indexWords) = true →
    (beginsTicked f = true → Fragment.isNamedIndex (bareHead f) = false) ∧
      ∀ i < 3, beginsPhrase (f.tail.drop i) = false
  group : ∀ p ∈ Fragment.typeName? f.tail, PlainGroup p.2
  zone : spells ["timestamp", "without", "time", "zone"] f.tail = true →
    Column.zone? ((f.drop 5).drop (leadingGroup (f.drop 5))) = none

instance (f : List Lexeme) : Decidable (Settled f) :=
  decidable_of_iff
    (beginsPhrase f = false ∧ beginsCollation f.tail = false ∧
      (f.head?.any (·.token.isOneOf indexWords) = true →
        (beginsTicked f = true → Fragment.isNamedIndex (bareHead f) = false) ∧
          ∀ i < 3, beginsPhrase (f.tail.drop i) = false) ∧
      (∀ p ∈ Fragment.typeName? f.tail, PlainGroup p.2) ∧
      (spells ["timestamp", "without", "time", "zone"] f.tail = true →
        Column.zone? ((f.drop 5).drop (leadingGroup (f.drop 5))) = none))
    ⟨fun ⟨hf, ht, hi, hg, hz⟩ => ⟨hf, ht, hi, hg, hz⟩,
      fun ⟨hf, ht, hi, hg, hz⟩ => ⟨hf, ht, hi, hg, hz⟩⟩

private theorem isNamedIndex_of_not_indexWord {l : Lexeme}
    (h : l.token.isOneOf indexWords = false) : Fragment.isNamedIndex (l :: ls) = false := by
  rw [Token.isOneOf_eq_any, List.any_eq_false] at h
  have hconstraint : l.token.isWord "CONSTRAINT" = false := by
    simpa using h "CONSTRAINT" (by decide)
  have hindex : l.token.isOneOf ["KEY", "INDEX", "FULLTEXT", "SPATIAL"] = false := by
    rw [Token.isOneOf_eq_any, List.any_eq_false]
    exact fun w hw => h w (List.mem_cons_of_mem _ hw)
  simp [Fragment.isNamedIndex, hconstraint, hindex]

private theorem isNamedIndex_of_ticked {l : Lexeme} (h : beginsTicked (l :: ls) = true) :
    Fragment.isNamedIndex (l :: ls) = false := by
  have htext : l.text.head? = some '\x60' := by simpa [beginsTicked] using h
  simp [Fragment.isNamedIndex, htext]

private theorem Kept.isNamedIndex_bare {l l' : Lexeme} (h : Kept Steady l l')
    (hbare : Fragment.isNamedIndex (bareHead (l :: ls)) = false) :
    Fragment.isNamedIndex (l' :: ls) = false := by
  simp only [bareHead, List.modifyHead_cons, Fragment.isNamedIndex, List.head?_nil] at hbare
  simp only [Fragment.isNamedIndex, h.token]
  rw [Bool.and_eq_false_iff]
  exact .inr (by simpa using hbare)

private theorem Kept.isNamedIndex {l l' : Lexeme} (h : Kept Steady l l')
    (hl : beginsTicked (l :: ls) = false) :
    Fragment.isNamedIndex (l' :: ls) = Fragment.isNamedIndex (l :: ls) := by
  simp only [Fragment.isNamedIndex, h.token, h.text_eq hl]

/-- Preparation keeps the name and the type of a settled column, and no other fragment becomes a
column. -/
theorem Rewritten.shape?_read (h : Prepared Steady ls ls') (hp : Placed ls) (hs : Settled ls) :
    (Fragment.read ls').shape? = (Fragment.read ls).shape? := by
  cases ls with
  | nil => rw [h.eq_nil]
  | cons l t =>
    obtain ⟨l', t', rfl, hl, ht⟩ := h.cons_of_not_phrase hs.first
    have hindex : Fragment.isNamedIndex (l' :: t') = Fragment.isNamedIndex (l :: t) := by
      cases hw : l.token.isOneOf indexWords with
      | false =>
        rw [isNamedIndex_of_not_indexWord hw,
          isNamedIndex_of_not_indexWord (by rw [hl.token, hw])]
      | true =>
        obtain ⟨htick, hphrase⟩ := hs.index hw
        have hat : ∀ i < 3, t'[i]?.map (·.token) = t[i]?.map (·.token) := fun i hi =>
          ht.getElem?_token fun j hj => hphrase j (Nat.lt_of_le_of_lt hj hi)
        have hsame : Fragment.isNamedIndex (l' :: t') = Fragment.isNamedIndex (l' :: t) := by
          simp only [Fragment.isNamedIndex, hat 0 (by decide), hat 1 (by decide), hat 2 (by decide)]
        rw [hsame]
        cases hticked : beginsTicked (l :: t) with
        | false => rw [hl.isNamedIndex hticked]
        | true => rw [isNamedIndex_of_ticked hticked, hl.isNamedIndex_bare (htick hticked)]
    rw [Fragment.shape?_read, Fragment.shape?_read, hindex, hl.token,
      ht.typeAfter? hp.tail hs.type (fun t r htr => hs.group (t, r) htr) hs.zone]

end

end Lexeme

end TableDialects
