import TableDialects.Proofs.Column.Typed
import TableDialects.Proofs.Token.Capital

/-!
# References of a column

A reference names the table and the column that a column refers to, and may have rules for what
happens when that row is deleted or updated. It leaves the column as it is, unless a rule sets the
default: the second word of such a rule is taken for a clause of the column.
-/
namespace TableDialects

open Lexeme

namespace Clause

/-- The clauses that bear on a column. -/
def effects (ls : List Lexeme) : List Clause := (readAll ls).filter (· ≠ .other)

private theorem effects_nil : effects [] = [] := by
  rw [effects, readAll]
  rfl

theorem effects_skip {l : Lexeme} {rest : List Lexeme} {n : Nat} (h : read l rest = (.other, n)) :
    effects (l :: rest) = effects (rest.drop n) := by
  rw [effects, ClausePhrase.readAll_cons h, List.filter_cons_of_neg (by simp)]
  rfl

private theorem effects_cons {l : Lexeme} {rest : List Lexeme} {c : Clause} {n : Nat}
    (h : read l rest = (c, n)) (hc : c ≠ .other) :
    effects (l :: rest) = c :: effects (rest.drop n) := by
  rw [effects, ClausePhrase.readAll_cons h, List.filter_cons_of_pos (by simpa using hc)]
  rfl

private theorem effects_group {es : List (List Lexeme)}
    (h : ∀ e ∈ es, Token.Enclosed (e.map (·.token)))
    (g g' : Text) (rest : List Lexeme) : effects (group g es g' ++ rest) = effects rest := by
  have hlength := @groupLength_group g g' es h rest
  rw [group, List.cons_append] at hlength ⊢
  have hread : read ⟨g, ['('], .openParen⟩ (entries es ++ [⟨g', [')'], .closeParen⟩] ++ rest) =
      (.other, (entries es ++ [⟨g', [')'], .closeParen⟩] : List Lexeme).length) := by
    simp only [read, Token.isWord, Token.isOneOf, Bool.false_and, Bool.false_eq_true, if_false,
      if_true, hlength, List.length_cons, Nat.add_sub_cancel]
  rw [effects_skip hread, List.drop_left]

/-- A column is the same if it is put together from the clauses that bear on it. -/
theorem foldl_effects (ls : List Lexeme) (d : Draft) :
    (effects ls).foldl Draft.add d = (readAll ls).foldl Draft.add d := by
  rw [effects, List.foldl_filter]
  congr 1
  funext d c
  split
  · rfl
  · next hc =>
    obtain rfl : c = .other := by simpa using hc
    rfl

end Clause

namespace Reference

inductive Event where
  | delete
  | update
  deriving DecidableEq

inductive Action where
  | cascade
  | restrict
  | setNull
  | setDefault
  | noAction
  deriving DecidableEq

def Event.word : Event → String
  | delete => "DELETE"
  | update => "UPDATE"

def Action.firstWord : Action → String
  | cascade => "CASCADE"
  | restrict => "RESTRICT"
  | setNull | setDefault => "SET"
  | noAction => "NO"

def Action.secondWord? : Action → Option String
  | cascade | restrict => none
  | setNull => some "NULL"
  | setDefault => some "DEFAULT"
  | noAction => some "ACTION"

/-- What happens to a column on an event. -/
structure Rule where
  event : Event
  action : Action
  deriving DecidableEq

/-- The lexemes are the rules, one after the other. -/
inductive Spelled : List Rule → List Lexeme → Prop
  | nil : Spelled [] []
  | cons {r : Rule} {rs : List Rule} {on event first : Lexeme} {second rest : List Lexeme}
      (ho : IsKeyword "ON" on) (he : IsKeyword r.event.word event)
      (hf : IsKeyword r.action.firstWord first)
      (hs : List.Forall₂ IsKeyword r.action.secondWord?.toList second) (h : Spelled rs rest) :
      Spelled (r :: rs) (on :: event :: first :: (second ++ rest))

/-- The words of a rule, one behind the other. -/
def Rule.words (r : Rule) : List String :=
  "ON" :: r.event.word :: r.action.firstWord :: r.action.secondWord?.toList

/-- Whether the last rule sets the default. -/
def setsLast (rs : List Rule) : Bool := rs.getLast?.any (·.action = .setDefault)

/-- Whether a rule ahead of the last one sets the default. -/
def setsEarlier (rs : List Rule) : Bool := rs.dropLast.any (·.action = .setDefault)

variable {rs : List Rule} {ls : List Lexeme}

private theorem apart_second {a : Action} {second : List Lexeme}
    (h : List.Forall₂ IsKeyword a.secondWord?.toList second) : Apart second := by
  generalize a.secondWord?.toList = words at h
  induction h with
  | nil => exact apart_nil
  | cons h _ ih => exact h.apart.append ih

/-- The rules as they are spelled in capitals with a space in front of each word. -/
theorem spelled_words (rs : List Rule) :
    Spelled rs ((rs.flatMap Rule.words).map fun w : String => keyword w) := by
  induction rs with
  | nil => exact .nil
  | cons r rs ih =>
    have hsecond : List.Forall₂ IsKeyword r.action.secondWord?.toList
        (r.action.secondWord?.toList.map fun w : String => keyword w) := by
      cases r.action with
      | cascade | restrict => exact .nil
      | setNull | setDefault | noAction => exact .cons (isKeyword_keyword (by decide)) .nil
    rw [List.flatMap_cons, List.map_append]
    exact .cons (isKeyword_keyword (by decide)) (isKeyword_keyword (by cases r.event <;> decide))
      (isKeyword_keyword (by cases r.action <;> decide)) hsecond ih

private theorem Spelled.apart (h : Spelled rs ls) : Apart ls := by
  induction h with
  | nil => exact apart_nil
  | cons ho he hf hs _ ih =>
    exact ho.apart.append (he.apart.append (hf.apart.append ((apart_second hs).append ih)))

/-- White space leads the words of an action and the rules. -/
theorem gap_ne_nil {a : Action} {second : List Lexeme}
    (hs : List.Forall₂ IsKeyword a.secondWord?.toList second) (h : Spelled rs ls) :
    ∀ l ∈ (second ++ ls).head?, l.gap ≠ [] := by
  intro l hl
  generalize a.secondWord?.toList = words at hs
  cases hs with
  | cons hs =>
    obtain rfl := Option.some.inj hl
    exact hs.gap.ne_nil
  | nil =>
    cases h with
    | nil => exact absurd hl (by simp)
    | cons ho =>
      obtain rfl := Option.some.inj hl
      exact ho.gap.ne_nil

section
variable {a : Action} {first : Lexeme} (hf : IsKeyword a.firstWord first)
include hf

/-- The first word of an action is a value. -/
theorem spelled_first : DefaultValue.Spelled first.text [first] := by
  have hk := TypeSpelling.isOneOf_of_isKeyword hf DefaultValue.clauseKeywords
  rw [hf.bare.token] at hk
  exact .word hf.gap hf.bare (hk.trans (by cases a <;> decide))

private theorem expressionLength?_first {rest : List Lexeme} (hg : ∀ l ∈ rest.head?, l.gap ≠ []) :
    DefaultValue.expressionLength? (first :: rest) =
      some (1 + DefaultValue.suffixesLength rest) := by
  have hvalue := FreeClause.valueLength?_spelled (spelled_first hf) hg
  rw [List.singleton_append] at hvalue
  rw [DefaultValue.expressionLength?, hvalue, Option.map_some]
  rfl

end

theorem second_cases {a : Action} {second : List Lexeme}
    (hs : List.Forall₂ IsKeyword a.secondWord?.toList second) :
    second = [] ∨ ∃ w l, a.secondWord? = some w ∧ IsKeyword w l ∧ second = [l] := by
  generalize a.secondWord? = word at hs
  cases word with
  | none => exact .inl (List.forall₂_nil_left_iff.1 hs)
  | some w =>
    obtain ⟨l, rest, hl, hrest, rfl⟩ := List.forall₂_cons_left_iff.1 hs
    obtain rfl := List.forall₂_nil_left_iff.1 hrest
    exact .inr ⟨w, l, rfl, hl, rfl⟩

/-- No event clause begins with the second word of an action. -/
theorem suffixesLength_second {a : Action} {w : String} {l : Lexeme} {rest : List Lexeme}
    (hw : a.secondWord? = some w) (hl : IsKeyword w l) :
    DefaultValue.suffixesLength (l :: rest) = 0 := by
  have hword : ∀ w ∈ a.secondWord?, Text.same w.toList "ON".toList = false := by
    cases a <;> decide
  have hon : l.token.isWord "ON" = false :=
    (Token.isWord_of_isWord hl.isWord).trans (hword w hw)
  exact FreeClause.suffixesLength_cons (by simp [hl.bare.token]) (by rw [hon, Bool.false_and])

/-- A rule for deletes is no event clause. -/
theorem suffixesLength_rules (h : Spelled rs ls) (hu : ∀ r ∈ rs.head?, r.event = .delete) :
    DefaultValue.suffixesLength ls = 0 := by
  cases h with
  | nil => exact FreeClause.suffixesLength_of_begins FreeClause.begins_nil
  | @cons r _ on event first _ _ ho he hf =>
    rw [hu r rfl] at he
    have hnone : event.token.isOneOf ["UPDATE", "INSERT"] = false :=
      (TypeSpelling.isOneOf_of_isKeyword he _).trans (by decide)
    exact FreeClause.suffixesLength_cons (by simp [ho.bare.token]) (by simp [hnone])

private theorem suffixesLength_append {a : Action} {second : List Lexeme}
    (hs : List.Forall₂ IsKeyword a.secondWord?.toList second) (h : Spelled rs ls)
    (hu : ∀ r ∈ rs.head?, r.event = .delete) :
    DefaultValue.suffixesLength (second ++ ls) = 0 := by
  obtain rfl | ⟨w, l, hw, hl, rfl⟩ := second_cases hs
  · exact suffixesLength_rules h hu
  · exact suffixesLength_second hw hl

/-- Each event has one rule at most, so deletes alone are left after a rule for updates. -/
theorem head_delete {r : Rule} (hn : ((r :: rs).map (·.event)).Nodup) (hr : r.event = .update) :
    ∀ r' ∈ rs.head?, r'.event = .delete := by
  intro r' hr'
  have hnot := (List.nodup_cons.1 hn).1
  cases hevent : r'.event with
  | delete => rfl
  | update =>
    exact absurd (List.mem_map.2 ⟨r', List.mem_of_mem_head? hr', hevent.trans hr.symm⟩) hnot

section
variable {r : Rule} {on event first : Lexeme} {second : List Lexeme} (ho : IsKeyword "ON" on)
  (he : IsKeyword r.event.word event) (hf : IsKeyword r.action.firstWord first)
  (hs : List.Forall₂ IsKeyword r.action.secondWord?.toList second) (h : Spelled rs ls)
  (hn : ((r :: rs).map (·.event)).Nodup)
include ho he hf hs h hn

/-- A rule for updates is no update clause. -/
theorem effects_update (hr : r.event = .update) :
    Clause.effects (on :: event :: first :: (second ++ ls)) = Clause.effects (second ++ ls) := by
  have hlength := expressionLength?_first hf (gap_ne_nil hs h)
  rw [suffixesLength_append hs h (head_delete hn hr)] at hlength
  rw [hr] at he
  have hnext : nextIs "UPDATE" (event :: first :: (second ++ ls)) = true := he.isWord
  have haction : Clause.ofUpdate first.text = .other := by
    have hone := TypeSpelling.isOneOf_of_isKeyword hf ["CASCADE", "RESTRICT", "SET", "NO"]
    rw [hf.bare.token] at hone
    exact if_pos (hone.trans (by cases r.action <;> decide))
  have hread : Clause.read on (event :: first :: (second ++ ls)) = (.other, 2) := by
    rw [FreeClause.read_congr ho]
    simp +decide only [Clause.read, hnext, hlength, Bool.and_eq_true, false_and, if_true, if_false,
      List.drop_succ_cons, List.drop_zero, List.take_succ_cons, List.take_zero, sourceFromToken,
      source_nil, List.append_nil, haction]
  exact Clause.effects_skip hread

/-- Behind a value, a rule for updates is an event clause up to the first word of its action. -/
theorem suffixesLength_update (hr : r.event = .update) :
    DefaultValue.suffixesLength (on :: event :: first :: (second ++ ls)) = 3 := by
  have hvalue := FreeClause.valueLength?_spelled (spelled_first hf) (gap_ne_nil hs h)
  have hrest := suffixesLength_append hs h (head_delete hn hr)
  rw [hr] at he
  have hupdate : event.token.isOneOf ["UPDATE", "INSERT"] = true :=
    (TypeSpelling.isOneOf_of_isKeyword he _).trans (by decide)
  have hfirst : DefaultValue.suffixLength? (on :: event :: first :: (second ++ ls)) = some 3 := by
    rw [DefaultValue.suffixLength?, if_neg (by simp [ho.bare.token])]
    rw [List.singleton_append] at hvalue
    simp only [ho.isWord, hupdate, hvalue, List.head?_cons, Option.any_some, Bool.and_self,
      if_true, List.drop_one, List.tail_cons, Option.map_some, List.length_singleton]
  rw [DefaultValue.suffixesLength, hfirst]
  simp [hrest]

end

/-- What is taken for an event clause would bear on nothing by itself. -/
theorem effects_suffixes {a : Action} {second : List Lexeme}
    (hs : List.Forall₂ IsKeyword a.secondWord?.toList second) (h : Spelled rs ls)
    (hn : (rs.map (·.event)).Nodup) :
    Clause.effects ((second ++ ls).drop (DefaultValue.suffixesLength (second ++ ls))) =
      Clause.effects (second ++ ls) := by
  obtain rfl | ⟨w, l, hw, hl, rfl⟩ := second_cases hs
  · rw [List.nil_append]
    cases h with
    | nil => rw [List.drop_nil]
    | @cons r rs _ _ _ _ _ ho he hf hs' h =>
      cases hr : r.event with
      | delete =>
        rw [suffixesLength_rules (.cons ho he hf hs' h) (by simpa using hr), List.drop_zero]
      | update =>
        rw [suffixesLength_update ho he hf hs' h hn hr, effects_update ho he hf hs' h hn hr]
        rfl
  · rw [List.singleton_append, suffixesLength_second hw hl, List.drop_zero]

/-- A rule bears on nothing up to the second word of its action. -/
theorem effects_rule {r : Rule} {on event first : Lexeme} {second : List Lexeme}
    (ho : IsKeyword "ON" on) (he : IsKeyword r.event.word event)
    (hf : IsKeyword r.action.firstWord first)
    (hs : List.Forall₂ IsKeyword r.action.secondWord?.toList second) (h : Spelled rs ls)
    (hn : ((r :: rs).map (·.event)).Nodup) :
    Clause.effects (on :: event :: first :: (second ++ ls)) = Clause.effects (second ++ ls) := by
  cases hr : r.event with
  | update => exact effects_update ho he hf hs h hn hr
  | delete =>
    have hlength := expressionLength?_first hf (gap_ne_nil hs h)
    rw [hr] at he
    have hdelete : nextIs "DELETE" (event :: first :: (second ++ ls)) = true := he.isWord
    have hupdate : nextIs "UPDATE" (event :: first :: (second ++ ls)) = false :=
      (Token.isWord_of_isWord he.isWord).trans (by decide)
    have hread : Clause.read on (event :: first :: (second ++ ls)) =
        (.other, DefaultValue.suffixesLength (second ++ ls) + 2) := by
      rw [FreeClause.read_congr ho]
      simp +decide only [Clause.read, hdelete, hupdate, hlength, Bool.and_eq_true, false_and,
        if_true, if_false, List.drop_succ_cons, List.drop_zero, Option.getD_some, Bool.true_or]
      congr 1
      omega
    rw [Clause.effects_skip hread, List.drop_succ_cons, List.drop_succ_cons,
      effects_suffixes hs h (List.nodup_cons.1 hn).2]

/-- The event and the first word of a rule lead no clause. -/
theorem effects_tail {r : Rule} {event first : Lexeme} {rest : List Lexeme}
    (he : IsKeyword r.event.word event) (hf : IsKeyword r.action.firstWord first) :
    Clause.effects (event :: first :: rest) = Clause.effects rest := by
  rw [Clause.effects_skip (FreeClause.read_skip he (by cases r.event <;> decide) _), List.drop_zero,
    Clause.effects_skip (FreeClause.read_skip hf (by cases r.action <;> decide) _), List.drop_zero]

private theorem effects_second {a : Action} {second rest : List Lexeme}
    (hs : List.Forall₂ IsKeyword a.secondWord?.toList second) (ha : a ≠ .setDefault) :
    Clause.effects (second ++ rest) = Clause.effects rest := by
  have hword : ∀ w ∈ a.secondWord?, (keyword w).token.isOneOf Clause.leadingWords = false := by
    cases a with
    | setDefault => exact absurd rfl ha
    | _ => decide
  obtain rfl | ⟨w, l, hw, hl, rfl⟩ := second_cases hs
  · rfl
  · exact Clause.effects_skip (FreeClause.read_skip hl (hword w hw) rest)

/-- Without a value behind it, `DEFAULT` is a problem. -/
theorem read_default_nil {l : Lexeme} (hl : IsKeyword "DEFAULT" l) :
    Clause.read l [] = (.missingDefault, 0) :=
  (FreeClause.read_congr hl []).trans (by decide)

/-- The `ON` of a rule is a value. -/
theorem read_default_on {r : Rule} {l on event : Lexeme} {rest : List Lexeme}
    (hl : IsKeyword "DEFAULT" l) (ho : IsKeyword "ON" on) (he : IsKeyword r.event.word event) :
    Clause.read l (on :: event :: rest) = (.defaultValue on.text, 1) := by
  have hk := TypeSpelling.isOneOf_of_isKeyword ho DefaultValue.clauseKeywords
  have hevent : event.token.isWord "ON" = false :=
    (Token.isWord_of_isWord he.isWord).trans (by cases r.event <;> decide)
  have hsuffix : DefaultValue.suffixesLength (event :: rest) = 0 :=
    FreeClause.suffixesLength_cons (by simp [he.bare.token]) (by rw [hevent, Bool.false_and])
  rw [ho.bare.token] at hk
  have hvalue : DefaultValue.valueLength? (on :: event :: rest) = some 1 :=
    FreeClause.valueLength?_spelled (.word ho.gap ho.bare (hk.trans (by decide)))
      (by simpa using he.gap.ne_nil)
  have hlength : DefaultValue.expressionLength? (on :: event :: rest) = some 1 := by
    rw [DefaultValue.expressionLength?, hvalue, Option.map_some,
      List.drop_succ_cons, List.drop_zero, hsuffix]
  rw [FreeClause.read_congr hl]
  simp +decide only [Clause.read, hlength, Bool.and_eq_true, false_and, if_true, if_false,
    List.take_succ_cons, List.take_zero, sourceFromToken, source_nil, List.append_nil]

private theorem sets_cons {r : Rule} (hr : r.action ≠ .setDefault) (rs : List Rule) :
    setsEarlier (r :: rs) = setsEarlier rs ∧ setsLast (r :: rs) = setsLast rs := by
  cases rs with
  | nil => simp [setsEarlier, setsLast, hr]
  | cons r' rs => simp [setsEarlier, setsLast, hr]

/-- Where an action sets the default, its second word is a clause: it takes the `ON` of the next
rule for a value, and has none behind the last rule. -/
theorem effects_rules (h : Spelled rs ls) (hn : (rs.map (·.event)).Nodup) :
    ∃ values : List Text, (∀ t ∈ values, Text.same t "ON" = true) ∧
      (values = [] ↔ setsEarlier rs = false) ∧
      Clause.effects ls = values.map .defaultValue ++
        if setsLast rs then [.missingDefault] else [] := by
  induction h with
  | nil => exact ⟨[], by simp, by simp [setsEarlier], Clause.effects_nil⟩
  | @cons r rs on event first second rest ho he hf hs h ih =>
    obtain ⟨values, hvalues, hnone, hrest⟩ := ih (List.nodup_cons.1 hn).2
    rw [effects_rule ho he hf hs h hn]
    by_cases ha : r.action = .setDefault
    · rw [ha] at hs
      obtain rfl | ⟨w, l, hw, hl, rfl⟩ := second_cases hs
      · simp [Action.secondWord?] at hs
      obtain rfl : "DEFAULT" = w := Option.some.inj hw
      cases h with
      | nil =>
        refine ⟨[], by simp, by simp [setsEarlier], ?_⟩
        rw [List.append_nil, Clause.effects_cons (read_default_nil hl) (by simp), List.drop_nil,
          Clause.effects_nil]
        simp [setsLast, ha]
      | @cons r' rs on' _ _ _ _ ho' he' hf' hs' h' =>
        refine ⟨on'.text :: values, List.forall_mem_cons.2 ⟨ho'.same, hvalues⟩,
          by simp [setsEarlier, ha], ?_⟩
        have hn' := (List.nodup_cons.1 hn).2
        have hlast : setsLast (r :: r' :: rs) = setsLast (r' :: rs) := by
          rw [setsLast, List.getLast?_cons_cons]
          rfl
        rw [effects_rule ho' he' hf' hs' h' hn'] at hrest
        rw [List.singleton_append, Clause.effects_cons (read_default_on hl ho' he') (by simp),
          List.drop_succ_cons, List.drop_zero, effects_tail he' hf', hrest, hlast]
        rfl
    · obtain ⟨hearlier, hlast⟩ := sets_cons ha rs
      refine ⟨values, hvalues, by rw [hearlier, hnone], ?_⟩
      rw [effects_second hs ha, hrest, hlast]

end Reference

/-- The table and the column that are referred to, and the rules behind them. -/
structure Reference where
  mark : Lexeme
  table : Lexeme
  /-- The white space in front of the parentheses. -/
  opening : Text := [' ']
  column : Lexeme
  /-- The white space at their end. -/
  closing : Text := []
  rules : List Reference.Rule
  ruleLexemes : List Lexeme

namespace Reference

/-- The lexeme is a name between double quotes. -/
inductive IsQuotedName : Lexeme → Prop
  | intro {g v s : Text} (h : Token.Quotes '\"' v s) : IsQuotedName ⟨g, '\"' :: s, .quoted '\"' v⟩

variable (r : Reference)

/-- The parentheses with the name of the column. -/
def list : List Lexeme := group r.opening [[r.column]] r.closing

def lexemes : List Lexeme := r.mark :: r.table :: (r.list ++ r.ruleLexemes)

/-- Quoted names, and one rule at most for each event. -/
structure WellFormed : Prop where
  mark : IsKeyword "REFERENCES" r.mark
  table_gap : IsGap r.table.gap
  table : IsQuotedName r.table
  opening : ∀ c ∈ r.opening, isSeparator c = true
  column_gap : ∀ c ∈ r.column.gap, isSeparator c = true
  column : IsQuotedName r.column
  closing : ∀ c ∈ r.closing, isSeparator c = true
  rules : Spelled r.rules r.ruleLexemes
  nodup : (r.rules.map (·.event)).Nodup

variable {r}

private theorem apart_lexemes (h : r.WellFormed) : Apart r.lexemes := by
  have htable : Apart [r.table] := by
    have hgap := h.table_gap
    have hname := h.table
    generalize r.table = table at hgap hname
    cases hname with
    | intro h => exact FreeClause.apart_literal hgap (.inr rfl) h
  have hcolumn : Clear [r.column] [] := by
    have hgap := h.column_gap
    have hname := h.column
    generalize r.column = column at hgap hname
    cases hname with
    | intro h => exact FreeClause.clear_literal hgap (.inr rfl) h
  have hlist : Apart r.list := apart_group h.opening h.closing (by simpa using hcolumn)
  exact h.mark.apart.append (htable.append (hlist.append h.rules.apart))

private theorem begins_lexemes (h : r.WellFormed) : FreeClause.Begins r.lexemes := by
  intro l hl
  obtain rfl := Option.some.inj hl
  exact ⟨"REFERENCES", by simp [FreeClause.firstWords], h.mark⟩

/-- Neither the table nor the column bears on the column that refers to them. -/
theorem effects_lexemes (h : r.WellFormed) :
    Clause.effects r.lexemes = Clause.effects r.ruleLexemes := by
  have htoken : ∀ l, IsQuotedName l → l.token.isOneOf Clause.leadingWords = false ∧
      l.token ≠ .openParen ∧ Token.isInner l.token = true := by
    rintro _ ⟨⟩
    exact ⟨rfl, by simp, rfl⟩
  have hmark := FreeClause.read_skip h.mark (by decide) (r.table :: (r.list ++ r.ruleLexemes))
  obtain ⟨hword, hopen, -⟩ := htoken r.table h.table
  have htable := ClausePhrase.read_other hword hopen (r.list ++ r.ruleLexemes)
  have henclosed : ∀ e ∈ [[r.column]], Token.Enclosed (e.map (·.token)) := by
    simpa using enclosed_singleton (htoken r.column h.column).2.2
  rw [lexemes, Clause.effects_skip hmark, List.drop_zero, Clause.effects_skip htable,
    List.drop_zero, list, Clause.effects_group henclosed]

end Reference

namespace Draft

/-- The word `ON` is kept as a default as it is written. -/
theorem normalize_on {t : Text} (h : Text.same t "ON" = true) :
    DefaultValue.normalize t = some t ∧ Text.holds "nextval" (Text.lower t) = false := by
  have hlower : t.map Char.toLower = ['o', 'n'] := by simpa [Text.same, Text.lowerAscii] using h
  obtain ⟨a, u, rfl, ha, hu⟩ := List.map_eq_cons_iff.1 hlower
  obtain ⟨b, v, rfl, hb, hv⟩ := List.map_eq_cons_iff.1 hu
  obtain rfl := List.map_eq_nil_iff.1 hv
  rcases Text.eq_or_eq_toUpper ha with rfl | rfl <;> rcases Text.eq_or_eq_toUpper hb with rfl | rfl
  all_goals decide +kernel

/-- The first of the words counts, and none if there is a default already. -/
theorem foldl_on {values : List Text} (h : ∀ t ∈ values, Text.same t "ON" = true) (d : Draft) :
    (values.map Clause.defaultValue).foldl add d =
      { d with column :=
        { d.column with defaultValue := d.column.defaultValue.or values.head? } } := by
  induction values generalizing d with
  | nil => simp
  | cons t values ih =>
    obtain ⟨hnormal, hnext⟩ := normalize_on (h t List.mem_cons_self)
    have hset : setDefault d.column t =
        { d.column with defaultValue := d.column.defaultValue.or (some t) } := by
      rw [setDefault, hnext, hnormal]
      rfl
    rw [List.map_cons, List.foldl_cons, ih fun u hu => h u (List.mem_cons_of_mem t hu)]
    simp only [add, hset, Option.or_assoc, Option.some_or, List.head?_cons]

/-- A missing default is a problem and nothing else. -/
theorem finish_missing {d : Draft} (h : d.onUpdate = none) (b : Bool) :
    ((if b then [Clause.missingDefault] else []).foldl add d).finish =
      { d with problems := d.problems ++ if b then [.malformedDefault d.column.name] else [] } := by
  cases b with
  | false =>
    simp only [Bool.false_eq_true, if_false, List.foldl_nil, List.append_nil]
    exact finish_of_none h
  | true =>
    simp only [if_true, List.foldl_cons, List.foldl_nil, add]
    exact finish_of_none h

end Draft

namespace Fragment

/-- A column is the same with a reference, unless a rule of it sets the default. Behind the last
rule this is a problem, and behind another one it gives a default to a column that has none. -/
theorem read_reference_iff {h : ColumnHead} (hw : h.WellFormed) {cs : List FreeClause}
    {lss : List (List Lexeme)} (hs : List.Forall₂ FreeClause.Spelled cs lss) {r : Reference}
    (hr : r.WellFormed) :
    ∃ (c : Column) (inlinePrimary : Bool) (problems : List Problem) (values : List Text),
      read (tokenize (source (h.lexemes ++ lss.flatten))) =
        { result := .ok (.column c inlinePrimary), problems } ∧
      read (tokenize (source (h.lexemes ++ (lss.flatten ++ r.lexemes)))) =
        { result := .ok (.column { c with defaultValue := c.defaultValue.or values.head? }
            inlinePrimary)
          problems := problems ++
            if Reference.setsLast r.rules then [.malformedDefault c.name] else [] } ∧
      (∀ t ∈ values, Text.same t "ON" = true) ∧
      (values = [] ↔ Reference.setsEarlier r.rules = false) ∧
      (read (tokenize (source (h.lexemes ++ (lss.flatten ++ r.lexemes)))) =
          read (tokenize (source (h.lexemes ++ lss.flatten))) ↔
        Reference.setsLast r.rules = false ∧
          (Reference.setsEarlier r.rules = true → c.defaultValue.isSome = true)) := by
  obtain ⟨values, hvalues, hnone, heffects⟩ := Reference.effects_rules hr.rules hr.nodup
  have hbegins := FreeClause.begins_flatten hs (Reference.begins_lexemes hr)
  have hapart := (FreeClause.apart_flatten hs).append (Reference.apart_lexemes hr)
  have hread := read_head hw hs (u := []) (by simp)
  have hread' := read_column hw hbegins hapart (u := []) (by simp)
  rw [FreeClause.readAll_flatten hs (Reference.begins_lexemes hr), List.foldl_append,
    ← Clause.foldl_effects r.lexemes, Reference.effects_lexemes hr, heffects, List.foldl_append,
    Draft.foldl_on hvalues] at hread'
  have hupdate := Draft.onUpdate_clauses cs (Column.draft h.name.text h.type.text h.lengthText)
  obtain ⟨_, _, hdraft⟩ := Column.draft_eq h.name.text h.type.text h.lengthText
  rw [List.append_nil] at hread hread'
  generalize (cs.map FreeClause.clause).foldl Draft.add
    (Column.draft h.name.text h.type.text h.lengthText) = d at hread hread' hupdate
  rw [hdraft] at hupdate
  rw [Draft.finish_of_none hupdate] at hread
  rw [Draft.finish_missing (by exact hupdate)] at hread'
  refine ⟨d.column, d.inlinePrimary, d.problems, values, hread, hread', hvalues, hnone, ?_⟩
  rw [hread, hread']
  have hsame : d.column.defaultValue.or values.head? = d.column.defaultValue ↔
      (Reference.setsEarlier r.rules = true → d.column.defaultValue.isSome = true) := by
    cases hearlier : Reference.setsEarlier r.rules with
    | false => simp [hnone.2 hearlier]
    | true =>
      have hne : values ≠ [] := fun hnil => absurd (hnone.1 hnil) (by simp [hearlier])
      obtain ⟨t, values, rfl⟩ := List.exists_cons_of_ne_nil hne
      cases d.column.defaultValue <;> simp
  have hcolumn : ∀ v, { d.column with defaultValue := v } = d.column ↔
      v = d.column.defaultValue := by
    intro v
    cases d.column
    simp
  cases Reference.setsLast r.rules with
  | false => simp [hcolumn, hsame]
  | true => simp

/-- A column that has a default keeps it if the first of two rules sets the default. -/
theorem read_reference_iff_default :
    read (tokenize
        "c INT DEFAULT 5 REFERENCES \"t\" (\"k\") ON DELETE SET DEFAULT ON UPDATE NO ACTION") =
      read (tokenize "c INT DEFAULT 5") := by
  have hnumber : DefaultValue.Spelled "5" [⟨[' '], "5", .number "5"⟩] :=
    .number isGap_space ⟨by decide, .whole (List.all_eq_true.1 (by decide)) rfl⟩
  have hclauses : List.Forall₂ FreeClause.Spelled [.defaultValue "5"]
      [[keyword "DEFAULT", ⟨[' '], "5", .number "5"⟩]] :=
    .cons (.defaultValue (isKeyword_keyword (by decide)) hnumber) .nil
  have hquoted : ∀ c ∈ ['t', 'k'], Reference.IsQuotedName
      ⟨if c = 't' then [' '] else [], ['\"', c, '\"'], .quoted '\"' [c]⟩ := by
    simp only [List.forall_mem_cons]
    exact ⟨.intro (.plain 't' (by decide) (by decide) .close),
      .intro (.plain 'k' (by decide) (by decide) .close), List.forall_mem_nil _⟩
  let reference : Reference :=
    { mark := keyword "REFERENCES"
      table := ⟨[' '], ['\"', 't', '\"'], .quoted '\"' ['t']⟩
      column := ⟨[], ['\"', 'k', '\"'], .quoted '\"' ['k']⟩
      rules := [⟨.delete, .setDefault⟩, ⟨.update, .noAction⟩]
      ruleLexemes :=
        ["ON", "DELETE", "SET", "DEFAULT", "ON", "UPDATE", "NO", "ACTION"].map fun w : String => keyword w }
  have hreference : reference.WellFormed :=
    { mark := isKeyword_keyword (by decide)
      table_gap := isGap_space
      table := hquoted 't' (by simp)
      opening := isGap_space.separators
      column_gap := List.forall_mem_nil _
      column := hquoted 'k' (by simp)
      closing := List.forall_mem_nil _
      rules := Reference.spelled_words reference.rules
      nodup := by decide }
  obtain ⟨c, p, problems, values, hread, -, -, -, hsame⟩ :=
    read_reference_iff ColumnHead.wellFormed_int hclauses hreference
  have hdefault : c.defaultValue.isSome = true := by
    have hself : (read (tokenize "c INT DEFAULT 5")).result =
        .ok (.column { name := "c", typeName := "INT", defaultValue := some "'5'".toList } false) := by
      decide +kernel
    have hcolumn := (congrArg Reading.result hread).symm.trans hself
    simp only [Except.ok.injEq, Fragment.column.injEq] at hcolumn
    rw [hcolumn.1]
    rfl
  exact hsame.2 ⟨by decide, fun _ => hdefault⟩

/-- The second word of an action gives a default to a column that has none, or is a problem. -/
theorem read_reference_set_default :
    (read (tokenize "c INT")).result =
        .ok (.column { name := "c", typeName := "INT" } false) ∧
      (read (tokenize "c INT")).problems = [] ∧
      (read (tokenize
        "c INT REFERENCES \"t\" (\"k\") ON DELETE SET DEFAULT ON UPDATE CASCADE")).result =
          .ok (.column { name := "c", typeName := "INT", defaultValue := some "ON".toList } false) ∧
      (read (tokenize "c INT REFERENCES \"t\" (\"k\") ON DELETE SET DEFAULT")).problems =
        [.malformedDefault "c"] := by
  decide +kernel

end Fragment

end TableDialects
