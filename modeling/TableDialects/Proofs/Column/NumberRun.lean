import TableDialects.Proofs.Column.Update
import TableDialects.Proofs.Token.Run
import Mathlib.Data.List.Chain
import Mathlib.Data.List.TakeWhile

/-!
# Defaults that begin with a digit

Of a run of letters, digits, underscores and points that begins with a digit, the digits and points
up to the first letter or underscore are the default. What follows them is read as clauses.
-/
namespace TableDialects

open Lexeme

namespace DefaultValue

/-- White space, or a word, and then no word that makes it an event clause. -/
structure Stops (ls : List Lexeme) : Prop where
  head : ∀ l ∈ ls.head?, l.gap ≠ [] ∨ l.token.word? ≠ none
  not_number : ls.head?.any (·.token.isNumber) = false
  suffixes : suffixesLength ls = 0

variable {ds : Text} {more rest : List Lexeme}

private theorem continuesRun_eq_false {l : Lexeme} (h : l.gap ≠ [] ∨ l.token.word? ≠ none) :
    continuesRun l = false := by
  rcases h with h | h
  · simp [continuesRun, h]
  · cases hl : l.token with
    | word => simp [continuesRun, hl]
    | _ => simp [hl, Token.word?] at h

private theorem runLength_append (first : Lexeme) (hm : ∀ l ∈ more, continuesRun l = true)
    (hs : Stops rest) : runLength (first :: (more ++ rest)) = 1 + more.length := by
  have hnone : rest.takeWhile continuesRun = [] := by
    cases rest with
    | nil => rfl
    | cons l rest => simp [continuesRun_eq_false (hs.head l rfl)]
  rw [runLength, List.takeWhile_append_of_pos hm, hnone, List.append_nil]

theorem drop_append (first : Lexeme) (more rest : List Lexeme) :
    (first :: (more ++ rest)).drop (1 + more.length) = rest := by
  rw [Nat.add_comm, List.drop_succ_cons, List.drop_left]

/-- A number with what is joined to it is one value, be it a date or not. -/
theorem temporalLength_append (first : Lexeme) (hm : ∀ l ∈ more, continuesRun l = true)
    (hs : Stops rest) : temporalLength (first :: (more ++ rest)) = 1 + more.length := by
  simp only [temporalLength, runLength_append first hm hs, drop_append, hs.not_number,
    Bool.false_and, Bool.false_eq_true, if_false, ite_self]

private theorem expressionLength?_number {g : Text} (hm : ∀ l ∈ more, continuesRun l = true)
    (hs : Stops rest) : expressionLength? (⟨g, ds, .number ds⟩ :: (more ++ rest)) =
      some (1 + more.length) := by
  have hvalue : valueLength? (⟨g, ds, .number ds⟩ :: (more ++ rest)) = some (1 + more.length) :=
    congrArg some (temporalLength_append ⟨g, ds, .number ds⟩ hm hs)
  rw [expressionLength?, hvalue, Option.map_some, drop_append, hs.suffixes, Nat.add_zero]

end DefaultValue

namespace Clause

open DefaultValue

/-- A default takes a number with what is joined to it, and the clauses go on behind it. -/
theorem readAll_number {g ds : Text} {more rest : List Lexeme}
    (hm : ∀ l ∈ more, continuesRun l = true) (hs : Stops rest) :
    readAll (keyword "DEFAULT" :: ⟨g, ds, .number ds⟩ :: (more ++ rest)) =
      .defaultValue (ds ++ source more) :: readAll rest := by
  have hw := ClausePhrase.isWord_firstWords "DEFAULT" (by simp)
  have hc := ClausePhrase.isOneOf_firstWords "DEFAULT" (by simp)
  have hd : (keyword "DEFAULT").token.isWord "DEFAULT" = true := by decide
  have htake : (⟨g, ds, .number ds⟩ :: (more ++ rest) : List Lexeme).take (1 + more.length) =
      ⟨g, ds, .number ds⟩ :: more := by
    rw [Nat.add_comm, List.take_succ_cons, List.take_left]
  have hread : read (keyword "DEFAULT") (⟨g, ds, .number ds⟩ :: (more ++ rest)) =
      (.defaultValue (ds ++ source more), 1 + more.length) := by
    simp only [read, hw, hc, hd, expressionLength?_number hm hs, htake, sourceFromToken]
    rfl
  rw [ClausePhrase.readAll_cons hread, drop_append]

/-- No word is followed by the name of an event. -/
def Quiet (ls : List Lexeme) : Prop :=
  ls.IsChain fun l m => l.token.word? ≠ none → m.token.isOneOf ["UPDATE", "INSERT"] = false

theorem isOneOf_of_word? {t : Token} (h : t.word? = none) (ws : List String) :
    t.isOneOf ws = false := by
  cases t with
  | word => simp [Token.word?] at h
  | _ => rfl

variable {ls : List Lexeme}

private theorem quiet_run (h : IsRun ls) : Quiet (ls ++ requiredLexemes) := by
  induction h with
  | nil => simp [Quiet, requiredLexemes, keyword, Token.isOneOf]; decide
  | number _ _ ih | point _ ih =>
    exact List.isChain_cons.2 ⟨fun m _ hword => absurd rfl hword, ih⟩
  | @word w ls _ hn _ ih =>
    refine List.isChain_cons.2 ⟨fun m hm _ => ?_, ih⟩
    cases ls with
    | nil =>
      obtain rfl := Option.some.inj hm
      decide
    | cons l ls =>
      obtain rfl := Option.some.inj hm
      exact isOneOf_of_word? (hn _ rfl) _

/-- Where a word leads the rest of a run, or nothing is left of it, the value ahead stops. -/
theorem stops_run (h : IsRun ls) (hw : ∀ l ∈ ls.head?, l.token.word? ≠ none) :
    Stops (ls ++ requiredLexemes) := by
  have hquiet := quiet_run h
  cases h with
  | nil =>
    have hbegins : FreeClause.Begins ([] ++ requiredLexemes) := by
      simpa using begins_required []
    exact ⟨by simp [requiredLexemes, keyword], rfl, FreeClause.suffixesLength_of_begins hbegins⟩
  | number | point => exact absurd rfl (hw _ rfl)
  | @word w ls =>
    have hnext := ((List.isChain_cons (l := ls ++ requiredLexemes)).1 hquiet).1
    have hevent : ((ls ++ requiredLexemes).head?.any
        (·.token.isOneOf ["UPDATE", "INSERT"])) = false := by
      cases hm : (ls ++ requiredLexemes).head? with
      | none => rfl
      | some m => exact hnext m hm (by simp [Token.word?])
    have hsuffix : DefaultValue.suffixesLength (⟨[], w, .word w⟩ :: (ls ++ requiredLexemes)) = 0 :=
      FreeClause.suffixesLength_cons (by simp) (by rw [hevent, Bool.and_false])
    exact ⟨by simp [Token.word?], rfl, hsuffix⟩

/-- No clause of the rest is an update clause. -/
theorem onUpdate_not_mem (h : Quiet ls) (raw : Text) : .onUpdate raw ∉ readAll ls := by
  intro hm
  obtain ⟨first, rest, hsuffix, hread⟩ := mem_readAll hm
  have hon := isWord_of_onUpdate hread
  rw [Bool.and_eq_true] at hon
  have hnext := (List.isChain_cons.1 (h.suffix hsuffix)).1
  have hword : first.token.word? ≠ none := by
    intro hnone
    have := isOneOf_of_word? hnone ["ON"]
    simp [Token.isOneOf_eq_any, hon.1] at this
  cases rest with
  | nil => exact absurd hon.2 (by simp [nextIs])
  | cons m rest =>
    have hupdate : m.token.isWord "UPDATE" = true := hon.2
    have := hnext m rfl hword
    simp [Token.isOneOf_eq_any, hupdate] at this

/-- A default is missed only if the word stands in the rest of the run. -/
theorem holds_of_missingDefault (h : IsRun ls)
    (hm : .missingDefault ∈ readAll (ls ++ requiredLexemes)) :
    Text.holds "default" (Text.lowerAscii (source ls)) = true := by
  obtain ⟨first, rest, hsuffix, hread⟩ := mem_readAll hm
  have hword := isWord_of_missingDefault hread
  have hmem : first ∈ ls := by
    refine (List.mem_append.1 (hsuffix.subset List.mem_cons_self)).resolve_right fun hm => ?_
    have hother : ∀ l ∈ requiredLexemes, l.token.isWord "DEFAULT" = false := by decide
    exact absurd hword (by simp [hother first hm])
  have htext : first.token = .word first.text := h.token_of_word? hmem (by
    intro hnone
    have := isOneOf_of_word? hnone ["DEFAULT"]
    simp [Token.isOneOf_eq_any, hword] at this)
  have hsame : Text.lowerAscii first.text = "default".toList := by
    rw [htext] at hword
    exact beq_iff_eq.1 hword
  rw [Text.holds_iff_isInfix, ← hsame]
  exact (infix_source hmem).map Char.toLower

end Clause

namespace DefaultValue

variable {t : Text}

/-- What begins with a digit and has no blanks is kept, or put between quotes, or is `NULL`. -/
theorem normalize_digit (hd : t.head?.any Char.isDigit = true)
    (ht : ∀ c ∈ t, ValuePhrase.IsPlain c) : ∃ u, normalize t = some u ∧
      (u = "NULL".toList ∧ Text.holds "NULL" (Text.upper t) = true ∨
        u = '\'' :: (t ++ ['\'']) ∨ u = t) := by
  obtain ⟨c, cs, rfl, hc⟩ : ∃ c cs, t = c :: cs ∧ c.isDigit = true := by
    cases t with
    | nil => exact absurd hd (by simp)
    | cons c cs => exact ⟨c, cs, rfl, by simpa using hd⟩
  have hne : ∀ d : Char, d.isDigit = false → c ≠ d := by
    rintro d hd rfl
    exact absurd (hc.symm.trans hd) (by simp)
  have hsolid : Text.Solid (c :: cs) := Text.Solid.of_forall (by simp) fun d hd => (ht d hd).isBlank
  have hcollapsed := Text.collapsed_of_forall fun d hd => (ht d hd).isBlank
  obtain ⟨hcall, hnow⟩ : Text.foldChar c ≠ 'c' ∧ Text.foldChar c ≠ 'n' :=
    Text.of_isDigit (p := fun c => Text.foldChar c ≠ 'c' ∧ Text.foldChar c ≠ 'n') (by decide) hc
  obtain ⟨htrue, hfalse⟩ : c.toLower ≠ 't' ∧ c.toLower ≠ 'f' :=
    Text.of_isDigit (p := fun c => c.toLower ≠ 't' ∧ c.toLower ≠ 'f') (by decide) hc
  rw [normalize_eq_classify hsolid (introduced?_of_head? (by simpa using hne '_' (by decide))),
    hcollapsed, literal?_eq_none_of_getLast? fun d hd => (ht d (List.mem_of_getLast? hd)).isQuote]
  refine ⟨_, rfl, ?_⟩
  have hquoted : isQuoted (c :: cs) = false := by
    simp [isQuoted, hne '\'' (by decide), hne '\"' (by decide)]
  unfold classify
  simp only [hquoted, DefaultPhrase.isClock_cons cs hcall hnow,
    DefaultPhrase.oneOf_truth_cons cs htrue hfalse, Bool.not_false, Bool.true_and,
    Bool.false_eq_true, if_false]
  split
  · next hnull => exact .inl ⟨rfl, hnull⟩
  · split
    · exact .inr (.inl rfl)
    · split
      · exact .inr (.inl rfl)
      · exact .inr (.inr rfl)

private theorem isPlain_of_isNumeric {c : Char} (h : Text.isNumeric c = true) :
    ValuePhrase.IsPlain c := by
  simp only [Text.isNumeric, Bool.or_eq_true, beq_iff_eq] at h
  exact h.imp Token.continuesWord_of_isDigit id

private theorem isPlain_of_isRunChar {c : Char} (h : Text.isRunChar c = true) :
    ValuePhrase.IsPlain c := by
  rcases Text.isRunChar_cases h with h | h
  · exact .inl (Token.continuesWord_of_isWordStart h)
  · exact isPlain_of_isNumeric h

/-- Digits and points have no case. -/
theorem case_of_isNumeric (ht : ∀ c ∈ t, Text.isNumeric c = true) :
    Text.upper t = t ∧ Text.lower t = t := by
  have hdigit : ∀ {c : Char}, c.isDigit = true → Text.upperChar c = [c] ∧ Text.lowerChar c = [c] :=
    Text.of_isDigit (p := fun c => Text.upperChar c = [c] ∧ Text.lowerChar c = [c]) (by decide)
  have hchar : ∀ c ∈ t, Text.upperChar c = [c] ∧ Text.lowerChar c = [c] := by
    intro c hc
    have hnumeric := ht c hc
    simp only [Text.isNumeric, Bool.or_eq_true, beq_iff_eq] at hnumeric
    rcases hnumeric with hnumeric | rfl
    · exact hdigit hnumeric
    · decide
  rw [Text.upper, Text.lower, List.flatMap_congr fun c hc => (hchar c hc).1,
    List.flatMap_congr fun c hc => (hchar c hc).2, List.flatMap_singleton']
  exact ⟨rfl, rfl⟩

/-- A word is not mentioned by digits and points. -/
theorem holds_of_isNumeric {needle : Text} {c : Char} (hc : c ∈ needle)
    (hn : Text.isNumeric c = false) (ht : ∀ c ∈ t, Text.isNumeric c = true) :
    Text.holds needle t = false := by
  by_contra h
  rw [Bool.not_eq_false, Text.holds_iff_isInfix] at h
  exact absurd (ht c (h.subset hc)) (by simp [hn])

/-- Digits and points are kept, or put between quotes. -/
theorem normalize_numeric (hd : t.head?.any Char.isDigit = true)
    (ht : ∀ c ∈ t, Text.isNumeric c = true) : ∃ u, normalize t = some u ∧
      ∀ c ∈ u, Text.isNumeric c = true ∨ c = '\'' := by
  obtain ⟨u, hu, ⟨-, hnull⟩ | rfl | rfl⟩ :=
    normalize_digit hd fun c hc => isPlain_of_isNumeric (ht c hc)
  · rw [(case_of_isNumeric ht).1, holds_of_isNumeric (c := 'N') (by decide) (by decide) ht] at hnull
    exact absurd hnull (by simp)
  · refine ⟨_, hu, fun c hc => ?_⟩
    simp only [List.mem_cons, List.mem_append, List.not_mem_nil, or_false] at hc
    exact hc.elim .inr fun hc => hc.imp_left (ht c)
  · exact ⟨u, hu, fun c hc => .inl (ht c hc)⟩

private theorem normalize_takeWhile (hd : t.head?.any Char.isDigit = true) :
    ∃ u, normalize (t.takeWhile Text.isNumeric) = some u ∧
      ∀ c ∈ u, Text.isNumeric c = true ∨ c = '\'' := by
  refine normalize_numeric ?_ fun d hd => List.mem_takeWhile_imp hd
  cases t with
  | nil => exact hd
  | cons d t =>
    have hdigit : d.isDigit = true := by simpa using hd
    simp [Text.isNumeric, hdigit]

/-- The normal form of a run is that of its digits and points only if it has nothing else. -/
theorem normalize_takeWhile_iff (hd : t.head?.any Char.isDigit = true)
    (ht : ∀ c ∈ t, Text.isRunChar c = true) :
    normalize (t.takeWhile Text.isNumeric) = normalize t ↔ ∀ c ∈ t, Text.isNumeric c = true := by
  refine ⟨fun he => ?_, fun h => by rw [List.takeWhile_eq_self_iff.2 h]⟩
  by_contra hnot
  obtain ⟨c, hc, hnumeric⟩ : ∃ c ∈ t, ¬ Text.isNumeric c = true := by simpa using hnot
  obtain ⟨u, hu, hchars⟩ := normalize_takeWhile hd
  obtain ⟨v, hv, hcases⟩ := normalize_digit hd fun d hd => isPlain_of_isRunChar (ht d hd)
  obtain rfl : u = v := Option.some.inj (hu.symm.trans (he.trans hv))
  have hquote : c ≠ '\'' := by
    rintro rfl
    exact absurd (ht _ hc) (by decide)
  have hmem : c ∉ u := fun hm => (hchars c hm).elim hnumeric hquote
  rcases hcases with ⟨rfl, -⟩ | rfl | rfl
  · exact absurd (hchars 'N' (by decide)) (by decide)
  · exact hmem (by simp [hc])
  · exact hmem hc

end DefaultValue

namespace Fragment

open DefaultValue Clause

/-- The lexemes of a default that is a run, and how it divides. -/
theorem exists_lexemes {x : Text} (hd : x.head?.any Char.isDigit = true)
    (hx : ∀ c ∈ x, Text.isRunChar c = true) :
    ∃ (ds : Text) (more rest : List Lexeme),
      Apart (⟨[' '], ds, .number ds⟩ :: (more ++ rest)) ∧
      source (⟨[' '], ds, .number ds⟩ :: (more ++ rest)) = ' ' :: x ∧
      (∀ l ∈ more, continuesRun l = true) ∧ IsRun rest ∧
      (∀ l ∈ rest.head?, l.token.word? ≠ none) ∧
      ds ++ source more = x.takeWhile Text.isNumeric ∧
      source rest = x.dropWhile Text.isNumeric := by
  obtain ⟨ls, rfl, hclear, hrun⟩ := exists_isRun hx
  cases hrun with
  | nil => exact absurd hd (by simp)
  | point => exact absurd hd (by simp)
  | word hw =>
    obtain ⟨c, cs, rfl, hc, -⟩ := hw.exists_cons
    exact absurd hd (by simp [Token.isDigit_of_isWordStart hc])
  | @number ds ls hds h =>
    obtain ⟨as, bs, rfl, has, hbs, hword, htake, hdrop⟩ := h.exists_append
    have hapart : Apart (⟨[' '], ds, .number ds⟩ :: (as ++ bs)) :=
      ⟨⟨⟨isGap_space.separators, hclear.1.starts, hclear.1.written⟩, hclear.2⟩, rfl⟩
    have hmore : ∀ l ∈ as, continuesRun l = true := by
      intro l hl
      obtain ⟨hgap, hnumber | hpoint⟩ := has l hl
      · cases hl : l.token with
        | number => simp [continuesRun, hgap, hl]
        | _ => simp [Token.isNumber, hl] at hnumber
      · simp [continuesRun, hgap, hpoint]
    have hself : source (⟨[], ds, .number ds⟩ :: (as ++ bs)) = ds ++ source (as ++ bs) := by simp
    refine ⟨ds, as, bs, hapart, by simp, hmore, hbs, hword, ?_, ?_⟩
    · rw [hself, List.takeWhile_append_of_pos hds, htake]
    · rw [hself, List.dropWhile_append_of_pos hds, hdrop]

private theorem source_int {x : Text} {ls : List Lexeme} (h : source ls = ' ' :: x) :
    source (ColumnHead.int.lexemes ++ (keyword "DEFAULT" :: ls ++ requiredLexemes)) =
      "c INT DEFAULT ".toList ++ (x ++ " NOT NULL".toList) := by
  have hhead : source ColumnHead.int.lexemes = "c INT".toList := by decide
  have hdefault : source (keyword "DEFAULT" :: ls) = " DEFAULT".toList ++ source ls :=
    source_cons _ _
  rw [source_append, source_append, hhead, hdefault, h, source_requiredLexemes]
  simp

/-- Digits and points are the default of a column that has none, and mention no sequence. -/
theorem setDefault_takeWhile {x : Text} (hd : x.head?.any Char.isDigit = true) (c : Column)
    (hc : c.defaultValue = none) :
    ∃ v, normalize (x.takeWhile Text.isNumeric) = some v ∧
      Draft.setDefault c (x.takeWhile Text.isNumeric) = { c with defaultValue := some v } := by
  obtain ⟨v, hv, -⟩ := normalize_takeWhile hd
  have hnumeric : ∀ d ∈ x.takeWhile Text.isNumeric, Text.isNumeric d = true :=
    fun d hd => List.mem_takeWhile_imp hd
  have hnext : Text.holds "nextval" (Text.lower (x.takeWhile Text.isNumeric)) = false := by
    rw [(case_of_isNumeric hnumeric).2]
    exact holds_of_isNumeric (c := 'n') (by decide) (by decide) hnumeric
  refine ⟨v, hv, ?_⟩
  rw [Draft.setDefault, hnext, hv, hc]
  rfl

/-- The digits and points that lead a run are the default, whatever follows them. The default is
that of the whole run only if nothing else follows, and it is missed only if the run mentions it. -/
theorem read_numberRun_iff {x : Text} (hd : x.head?.any Char.isDigit = true)
    (hx : ∀ c ∈ x, Text.isRunChar c = true) :
    ∃ (c : Column) (inlinePrimary : Bool) (n : Nat),
      read (tokenize ("c INT DEFAULT ".toList ++ (x ++ " NOT NULL".toList))) =
        { result := .ok (.column c inlinePrimary)
          problems := List.replicate n (.malformedDefault "c") } ∧
      c.defaultValue = normalize (x.takeWhile Text.isNumeric) ∧
      (0 < n → Text.holds "default" (Text.lowerAscii (x.dropWhile Text.isNumeric)) = true) ∧
      (0 < n ∨ c.defaultValue = normalize x ↔ 0 < n ∨ ∀ d ∈ x, Text.isNumeric d = true) := by
  obtain ⟨ds, more, rest, hapart, hsource, hmore, hrun, hword, htake, hdrop⟩ := exists_lexemes hd hx
  obtain ⟨v, hv, hset⟩ := setDefault_takeWhile hd { name := "c", typeName := "INT" } rfl
  let ls := keyword "DEFAULT" :: ⟨[' '], ds, .number ds⟩ :: (more ++ (rest ++ requiredLexemes))
  have hls : ls = keyword "DEFAULT" :: ⟨[' '], ds, .number ds⟩ :: (more ++ rest) ++
      requiredLexemes := by simp [ls]
  have hbegins : FreeClause.Begins ls := by
    intro l hl
    obtain rfl := Option.some.inj hl
    exact ⟨"DEFAULT", by simp [FreeClause.firstWords], isKeyword_keyword (by decide)⟩
  have hlsApart : Apart ls := by
    rw [hls]
    exact ((apart_keyword (w := "DEFAULT") (by decide)).append hapart).append apart_requiredLexemes
  have htext : source (ColumnHead.int.lexemes ++ ls) ++ [] =
      "c INT DEFAULT ".toList ++ (x ++ " NOT NULL".toList) := by
    rw [List.append_nil, hls, source_int hsource]
  have hdraft : Column.draft ColumnHead.int.name.text ColumnHead.int.type.text
      ColumnHead.int.lengthText = { column := { name := "c", typeName := "INT" } } := by
    decide
  have hread := read_column ColumnHead.wellFormed_int hbegins hlsApart (u := []) (by simp)
  have hnone := Draft.onUpdate_foldl (onUpdate_not_mem (quiet_run hrun))
    { column := { name := "c", typeName := "INT", defaultValue := some v } }
  rw [htext, readAll_number hmore (stops_run hrun hword), htake, List.foldl_cons, hdraft, Draft.add,
    hset, Draft.finish_of_none hnone] at hread
  dsimp only at hread
  rw [Draft.problems_foldl, List.nil_append] at hread
  have hdefault := Draft.defaultValue_foldl (readAll (rest ++ requiredLexemes)) (v := v)
    (d := { column := { name := "c", typeName := "INT", defaultValue := some v } }) rfl
  refine ⟨_, _, _, hread, hdefault.trans hv.symm, fun hn => ?_, ?_⟩
  · rw [← hdrop]
    exact holds_of_missingDefault hrun (List.count_pos_iff.1 hn)
  · rw [hdefault, ← hv, normalize_takeWhile_iff hd hx]

/-- Of a number in hexadecimal the first digit is kept. -/
theorem read_numberRun_iff_hexadecimal : ∃ (c : Column) (inlinePrimary : Bool),
    read (tokenize "c INT DEFAULT 0x1F NOT NULL") = { result := .ok (.column c inlinePrimary) } ∧
    c.defaultValue = normalize "0" ∧ c.defaultValue ≠ normalize "0x1F" := by
  obtain ⟨c, p, n, hread, hdefault, hmissing, hsame⟩ :=
    read_numberRun_iff (x := "0x1F".toList) (by decide) (List.all_eq_true.1 (by decide))
  have hzero : n = 0 := by
    by_contra hn
    exact absurd (hmissing (by omega)) (by decide)
  subst hzero
  refine ⟨c, p, hread, hdefault, fun he => ?_⟩
  have hnumeric := (hsame.1 (.inr he)).resolve_left (Nat.lt_irrefl 0)
  exact absurd (hnumeric 'x' (by decide)) (by decide)

/-- The exponent of a number is lost without a problem. -/
theorem read_numberRun_exponent :
    (read (tokenize "c INT DEFAULT 1e5 NOT NULL")).result =
        .ok (.column { name := "c", typeName := "INT", nullable := false,
                       defaultValue := some "'1'".toList } false) ∧
      (read (tokenize "c INT DEFAULT 1e5 NOT NULL")).problems = [] ∧
      normalize "1e5" = some "1e5".toList := by
  decide +kernel

end Fragment

end TableDialects
