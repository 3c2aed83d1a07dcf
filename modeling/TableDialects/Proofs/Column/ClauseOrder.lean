import TableDialects.Table.Fragment
import TableDialects.Proofs.Column.Clause
import Mathlib.Data.List.Perm.Basic

/-!
# The order of clauses

Each clause of a column sets its own part of the column and ends before the next one begins, so
the clauses may stand in any order.
-/
namespace TableDialects

open Lexeme

namespace Lexeme

/-- White space, which sets a token apart from the one before: spaces, tabs and line breaks. -/
structure IsGap (g : Text) : Prop where
  ne_nil : g ≠ []
  separators : ∀ c ∈ g, isSeparator c = true

/-- The lexeme is the bare word `w`. -/
structure IsBare (w : Text) (l : Lexeme) : Prop where
  word : IsWord w
  text : l.text = w
  token : l.token = .word w

/-- The lexeme is a keyword after white space, in upper or lower case. -/
structure IsKeyword (k : String) (l : Lexeme) : Prop where
  gap : IsGap l.gap
  bare : IsBare l.text l
  same : Text.same l.text k = true

/-- Digits, with a fraction or without. -/
structure IsNumber (ds : Text) : Prop where
  digit : ds.head?.any Char.isDigit = true
  numeral : Token.Numeral [] ds

theorem IsNumber.exists_cons {ds : Text} (h : IsNumber ds) :
    ∃ c cs, ds = c :: cs ∧ c.isDigit = true := by
  cases ds with
  | nil => exact absurd h.digit (by simp)
  | cons c cs => exact ⟨c, cs, rfl, by simpa using h.digit⟩

theorem IsNumber.written {ds : Text} (h : IsNumber ds) : Token.Written [] (.number ds) ds := by
  obtain ⟨c, cs, rfl, hc⟩ := h.exists_cons
  exact .number hc h.numeral

theorem IsNumber.startsToken {ds : Text} (h : IsNumber ds) (r : Text) :
    startsToken (ds ++ r) = true := by
  obtain ⟨c, cs, rfl, hc⟩ := h.exists_cons
  have hne : ∀ d : Char, d.isDigit = false → c ≠ d := by
    rintro d hd rfl
    exact absurd (hc.symm.trans hd) (by simp)
  refine startsToken_cons ?_ (hne _ (by decide)) (hne _ (by decide)) _
  simp [isSeparator, hne ' ' (by decide), hne '\t' (by decide), hne '\r' (by decide),
    hne '\n' (by decide)]

theorem IsBare.clear {w : Text} {l : Lexeme} (h : IsBare w l)
    (hg : ∀ c ∈ l.gap, isSeparator c = true) : Clear [l] [] := by
  refine ⟨⟨hg, ?_, ?_⟩, trivial⟩
  · simpa [h.text] using h.word.startsToken []
  · rw [h.token, h.text]
    exact h.word.written rfl

theorem IsGap.breaks {g : Text} (h : IsGap g) (t : Text) : Token.breaks (g ++ t) = true := by
  obtain ⟨c, g, rfl⟩ := List.exists_cons_of_ne_nil h.ne_nil
  simp [Token.breaks, Token.isBreak, h.separators c]

theorem IsBare.apart {w : Text} {l : Lexeme} (h : IsBare w l) (hg : IsGap l.gap) : Apart [l] :=
  ⟨h.clear hg.separators, by rw [source_cons]; exact hg.breaks _⟩

theorem IsKeyword.apart {k : String} {l : Lexeme} (h : IsKeyword k l) : Apart [l] :=
  h.bare.apart h.gap

theorem isGap_space : IsGap [' '] := ⟨by decide, by simp [isSeparator]⟩

theorem isKeyword_keyword {k : String} (h : IsWord k) : IsKeyword k (keyword k) :=
  ⟨isGap_space, ⟨h, rfl, rfl⟩, by simp [keyword, Text.same]⟩

theorem IsKeyword.isWord {k : String} {l : Lexeme} (h : IsKeyword k l) :
    l.token.isWord k = true := by
  rw [h.bare.token]
  exact h.same

end Lexeme

namespace DefaultValue

/-- The lexemes are one value, written `raw`: a literal, a number or a word that begins no
clause. -/
inductive Spelled : Text → List Lexeme → Prop
  | literal {g v s : Text} {q : Char} (hg : IsGap g) (hq : q = '\'' ∨ q = '\"')
      (h : Token.Quotes q v s) : Spelled (q :: s) [⟨g, q :: s, .quoted q v⟩]
  | number {g ds : Text} (hg : IsGap g) (h : IsNumber ds) : Spelled ds [⟨g, ds, .number ds⟩]
  | signed {g ds : Text} {sign : Char} (hg : IsGap g) (hs : sign = '-' ∨ sign = '+')
      (h : IsNumber ds) : Spelled (sign :: ds) [⟨g, [sign], .punct sign⟩, ⟨[], ds, .number ds⟩]
  | word {w : Text} {l : Lexeme} (hg : IsGap l.gap) (h : IsBare w l)
      (hk : Text.oneOf clauseKeywords w = false) : Spelled w [l]

end DefaultValue

/-- A clause that may stand anywhere behind the type of a column. -/
inductive FreeClause where
  | notNull
  | null
  | primaryKey
  | unique
  | autoIncrement
  | unsigned
  | zerofill
  | collate
  | characterSet
  | comment (text : Text)
  | defaultValue (raw : Text)
  deriving DecidableEq

namespace FreeClause

def isComment : FreeClause → Bool
  | comment _ => true
  | _ => false

def isDefault : FreeClause → Bool
  | defaultValue _ => true
  | _ => false

/-- The lexemes are this clause, with white space in front of each word. -/
inductive Spelled : FreeClause → List Lexeme → Prop
  | notNull {a b : Lexeme} (ha : IsKeyword "NOT" a) (hb : IsKeyword "NULL" b) :
      Spelled notNull [a, b]
  | null {a : Lexeme} (ha : IsKeyword "NULL" a) : Spelled null [a]
  | primaryKey {a b : Lexeme} (ha : IsKeyword "PRIMARY" a) (hb : IsKeyword "KEY" b) :
      Spelled primaryKey [a, b]
  | unique {a : Lexeme} (ha : IsKeyword "UNIQUE" a) : Spelled unique [a]
  | autoIncrement {a : Lexeme} (ha : IsKeyword "AUTO_INCREMENT" a) : Spelled autoIncrement [a]
  | unsigned {a : Lexeme} (ha : IsKeyword "UNSIGNED" a) : Spelled unsigned [a]
  | zerofill {a : Lexeme} (ha : IsKeyword "ZEROFILL" a) : Spelled zerofill [a]
  | collate {a n : Lexeme} (ha : IsKeyword "COLLATE" a) (hg : IsGap n.gap) (hn : IsBare n.text n) :
      Spelled collate [a, n]
  | characterSet {a b n : Lexeme} (ha : IsKeyword "CHARACTER" a) (hb : IsKeyword "SET" b)
      (hg : IsGap n.gap) (hn : IsBare n.text n) : Spelled characterSet [a, b, n]
  | comment {a : Lexeme} {g v s : Text} {q : Char} (ha : IsKeyword "COMMENT" a) (hg : IsGap g)
      (hq : q = '\'' ∨ q = '\"') (h : Token.Quotes q v s) :
      Spelled (comment v) [a, ⟨g, q :: s, .quoted q v⟩]
  | defaultValue {a : Lexeme} {raw : Text} {ls : List Lexeme} (ha : IsKeyword "DEFAULT" a)
      (h : DefaultValue.Spelled raw ls) : Spelled (defaultValue raw) (a :: ls)

/-- What the clause is read as. -/
def clause : FreeClause → Clause
  | notNull => .notNull
  | primaryKey => .primaryKey
  | autoIncrement => .autoIncrement
  | unsigned => .unsigned
  | comment text => .comment text
  | defaultValue raw => .defaultValue raw
  | null | unique | zerofill | collate | characterSet => .other

theorem clear_literal {g v s : Text} {q : Char} (hg : ∀ c ∈ g, isSeparator c = true)
    (hq : q = '\'' ∨ q = '\"') (h : Token.Quotes q v s) :
    Clear [⟨g, q :: s, .quoted q v⟩] [] := by
  refine ⟨⟨hg, ?_, ?_⟩, trivial⟩
  · rcases hq with rfl | rfl <;> exact startsToken_cons (by decide) (by decide) (by decide) _
  · rcases hq with rfl | rfl
    · exact .literal (q := '\'') (by decide) h (by simp)
    · exact .literal (q := '\"') (by decide) h (by simp)

theorem apart_literal {g v s : Text} {q : Char} (hg : IsGap g) (hq : q = '\'' ∨ q = '\"')
    (h : Token.Quotes q v s) : Apart [⟨g, q :: s, .quoted q v⟩] :=
  ⟨clear_literal hg.separators hq h, by rw [source_cons]; exact hg.breaks _⟩

theorem apart_value {raw : Text} {ls : List Lexeme} (h : DefaultValue.Spelled raw ls) :
    Apart ls := by
  cases h with
  | literal hg hq h => exact apart_literal hg hq h
  | number hg h =>
    exact apart_singleton hg.separators hg.ne_nil (by simpa using h.startsToken []) h.written
  | @signed g ds sign hg hs h =>
    obtain ⟨c, cs, rfl, hc⟩ := h.exists_cons
    have hm : c ≠ '-' := by
      rintro rfl
      exact absurd hc (by decide)
    have hdigits : ClearOf ⟨[], c :: cs, .number (c :: cs)⟩ [] :=
      ⟨by simp, h.startsToken [], h.written⟩
    have hsign : ClearOf ⟨g, [sign], .punct sign⟩ (c :: cs) := by
      refine ⟨hg.separators, ?_, ?_⟩
      · rcases hs with rfl | rfl <;> simp [startsToken, isSeparator, hm]
      · rcases hs with rfl | rfl <;> exact .punct (by decide) (by simp)
    obtain ⟨d, t, rfl⟩ := List.exists_cons_of_ne_nil hg.ne_nil
    exact ⟨⟨by simpa using hsign, hdigits, trivial⟩,
      by simp [Token.breaks, Token.isBreak, hg.separators d]⟩
  | word hg h => exact h.apart hg

variable {c : FreeClause} {ls rest : List Lexeme}

theorem Spelled.apart (h : Spelled c ls) : Apart ls := by
  cases h with
  | notNull ha hb | primaryKey ha hb => exact ha.apart.append hb.apart
  | null ha | unique ha | autoIncrement ha | unsigned ha | zerofill ha => exact ha.apart
  | collate ha hg hn => exact ha.apart.append (hn.apart hg)
  | characterSet ha hb hg hn => exact ha.apart.append (hb.apart.append (hn.apart hg))
  | comment ha hg hq h => exact ha.apart.append (apart_literal hg hq h)
  | defaultValue ha h => exact ha.apart.append (apart_value h)

/-- The words that these clauses begin with, and the one that begins a reference. -/
def firstWords : List String :=
  ["NOT", "NULL", "PRIMARY", "UNIQUE", "AUTO_INCREMENT", "UNSIGNED", "ZEROFILL", "COLLATE",
    "CHARACTER", "COMMENT", "DEFAULT", "REFERENCES"]

/-- One of these clauses begins here, or a reference, or nothing does. -/
def Begins (ls : List Lexeme) : Prop :=
  ∀ l ∈ ls.head?, ∃ w ∈ firstWords, IsKeyword w l

private theorem Spelled.begins (h : Spelled c ls) : Begins (ls ++ rest) := by
  intro l hl
  cases h with
  | notNull ha | null ha | primaryKey ha | unique ha | autoIncrement ha | unsigned ha
  | zerofill ha | collate ha | characterSet ha | comment ha | defaultValue ha =>
    obtain rfl := Option.some.inj hl
    exact ⟨_, by simp [firstWords], ha⟩

theorem begins_nil : Begins [] := fun _ hl => absurd hl (by simp)

theorem begins_flatten {cs : List FreeClause} {lss : List (List Lexeme)}
    (h : List.Forall₂ Spelled cs lss) (hb : Begins rest) : Begins (lss.flatten ++ rest) := by
  cases h with
  | nil => exact hb
  | cons h =>
    rw [List.flatten_cons, List.append_assoc]
    exact h.begins

/-- What a clause is read as depends on its first word alone, not on how it is written. -/
theorem read_congr {k : String} {l : Lexeme} (h : IsKeyword k l) (rest : List Lexeme) :
    Clause.read l rest = Clause.read (keyword k) rest := by
  have hw : ∀ w, l.token.isWord w = (keyword k).token.isWord w := fun w =>
    Token.isWord_of_isWord h.isWord
  have ho : ∀ ws, l.token.isOneOf ws = (keyword k).token.isOneOf ws := fun ws => by
    simp only [Token.isOneOf_eq_any, hw]
  have hp : l.token ≠ .openParen := by simp [h.bare.token]
  have hp' : (keyword k).token ≠ .openParen := by simp [keyword]
  simp only [Clause.read, hw, ho, if_neg hp, if_neg hp']

/-- A word that leads no clause is skipped. -/
theorem read_skip {k : String} {l : Lexeme} (h : IsKeyword k l)
    (hk : (keyword k).token.isOneOf Clause.leadingWords = false) (rest : List Lexeme) :
    Clause.read l rest = (.other, 0) :=
  (read_congr h rest).trans (ClausePhrase.read_other hk (by simp [keyword]) rest)

private theorem nextIs_cons {k : String} {l : Lexeme} (h : IsKeyword k l) (rest : List Lexeme) :
    nextIs k (l :: rest) = true := h.isWord

/-- No other keyword stands where one of these clauses begins. -/
theorem isWord_of_begins {l : Lexeme} (h : Begins (l :: rest)) {v : String}
    (hv : ∀ w ∈ firstWords, Text.same w.toList v.toList = false) : l.token.isWord v = false := by
  obtain ⟨w, hm, hl⟩ := h l rfl
  exact (Token.isWord_of_isWord hl.isWord).trans (hv w hm)

private theorem nextIs_of_begins (h : Begins rest) {v : String}
    (hv : ∀ w ∈ firstWords, Text.same w.toList v.toList = false) : nextIs v rest = false := by
  cases rest with
  | nil => rfl
  | cons l rest => exact isWord_of_begins h hv

private theorem leadingGroup_of_begins (h : Begins rest) : leadingGroup rest = 0 := by
  cases rest with
  | nil => rfl
  | cons l rest =>
    obtain ⟨w, -, hl⟩ := h l rfl
    simp [leadingGroup, hl.bare.token]

theorem gap_ne_nil (h : Begins rest) : ∀ l ∈ rest.head?, l.gap ≠ [] := by
  intro l hl
  obtain ⟨w, -, hw⟩ := h l hl
  exact hw.gap.ne_nil

/-- Neither a cast nor an event clause begins here. -/
theorem suffixesLength_cons {l : Lexeme} (hcast : l.token ≠ .cast)
    (hon : (l.token.isWord "ON" && rest.head?.any (·.token.isOneOf ["UPDATE", "INSERT"])) = false) :
    DefaultValue.suffixesLength (l :: rest) = 0 := by
  have hs : DefaultValue.suffixLength? (l :: rest) = none := by
    rw [DefaultValue.suffixLength?, if_neg hcast, hon]
    rfl
  rw [DefaultValue.suffixesLength, hs]

theorem suffixesLength_of_begins (h : Begins rest) : DefaultValue.suffixesLength rest = 0 := by
  cases rest with
  | nil => rw [DefaultValue.suffixesLength, DefaultValue.suffixLength?]
  | cons l rest =>
    obtain ⟨w, -, hl⟩ := h l rfl
    have hon : l.token.isWord "ON" = false := isWord_of_begins h (by decide)
    exact suffixesLength_cons (by simp [hl.bare.token]) (by rw [hon, Bool.false_and])

/-- The value ends where white space follows it. -/
theorem valueLength?_spelled {raw : Text} (h : DefaultValue.Spelled raw ls)
    (hg : ∀ l ∈ rest.head?, l.gap ≠ []) :
    DefaultValue.valueLength? (ls ++ rest) = some ls.length := by
  cases h with
  | literal => rfl
  | number _ h =>
    have hrun : ∀ l : Lexeme, DefaultValue.runLength (l :: rest) = 1 := by
      intro l
      cases rest with
      | nil => rfl
      | cons m rest =>
        have hm : DefaultValue.continuesRun m = false := by
          simp [DefaultValue.continuesRun, hg m rfl]
        simp [DefaultValue.runLength, hm]
    simp [DefaultValue.valueLength?, DefaultValue.temporalLength, hrun]
  | signed _ hs => rcases hs with rfl | rfl <;> rfl
  | @word w l _ h hk =>
    have hl : DefaultValue.wordLength (l :: rest) = 1 := by
      cases rest with
      | nil => rfl
      | cons m rest => simp [DefaultValue.wordLength, hg m rfl]
    simp only [List.singleton_append, DefaultValue.valueLength?, h.token, hk, hl]
    rfl

private theorem sourceFromToken_spelled {raw : Text} (h : DefaultValue.Spelled raw ls) :
    sourceFromToken ls = raw := by
  cases h with
  | word _ h => simp [sourceFromToken, h.text]
  | _ => simp [sourceFromToken]

private theorem expressionLength?_spelled {raw : Text} (h : DefaultValue.Spelled raw ls)
    (hb : Begins rest) : DefaultValue.expressionLength? (ls ++ rest) = some ls.length := by
  rw [DefaultValue.expressionLength?, valueLength?_spelled h (gap_ne_nil hb), Option.map_some,
    List.drop_left, suffixesLength_of_begins hb, Nat.add_zero]

/-- No clause takes more than its own lexemes, and none takes fewer. -/
theorem Spelled.read {l : Lexeme} (h : Spelled c (l :: ls)) (hb : Begins rest) :
    Clause.read l (ls ++ rest) = (c.clause, ls.length) := by
  have hn : nextIs "KEY" rest = false := nextIs_of_begins hb (by decide)
  have hg := leadingGroup_of_begins hb
  cases h with
  | notNull ha hb =>
    rw [read_congr ha]
    simp +decide only [Clause.read, Bool.and_eq_true, nextIs_cons hb, List.cons_append, if_true]
    rfl
  | null ha => exact read_skip ha (by decide) rest
  | primaryKey ha hb =>
    rw [read_congr ha]
    simp +decide only [Clause.read, Bool.and_eq_true, nextIs_cons hb, List.cons_append,
      false_and, if_true, if_false]
    rfl
  | unique ha =>
    rw [read_congr ha]
    simp +decide only [Clause.read, Bool.and_eq_true, List.nil_append, hn, false_and, if_true,
      if_false]
  | autoIncrement ha =>
    rw [read_congr ha]
    simp +decide only [Clause.read, Bool.and_eq_true, List.nil_append, hg, false_and, if_true,
      if_false]
  | unsigned ha =>
    rw [read_congr ha]
    exact ClausePhrase.read_unsigned
  | zerofill ha => exact read_skip ha (by decide) rest
  | collate ha hg hn =>
    rw [read_congr ha]
    simp +decide only [Clause.read, Bool.and_eq_true, false_and, if_true, if_false]
    rfl
  | characterSet ha hb hg hn =>
    rw [read_congr ha]
    simp +decide only [Clause.read, Bool.and_eq_true, nextIs_cons hb, List.cons_append, false_and,
      if_true, if_false]
    rfl
  | comment ha hg hq h =>
    rw [read_congr ha]
    simp +decide only [Clause.read, Bool.and_eq_true, List.cons_append, false_and, if_true,
      if_false]
    rfl
  | defaultValue ha h =>
    rw [read_congr ha]
    simp +decide only [Clause.read, Bool.and_eq_true, expressionLength?_spelled h hb, false_and,
      List.take_left, sourceFromToken_spelled h, if_true, if_false]
    rfl

private theorem Spelled.ne_nil (h : Spelled c ls) : ls ≠ [] := by
  cases h <;> simp

theorem Spelled.readAll (h : Spelled c ls) (hb : Begins rest) :
    Clause.readAll (ls ++ rest) = c.clause :: Clause.readAll rest := by
  obtain ⟨l, ls, rfl⟩ := List.exists_cons_of_ne_nil h.ne_nil
  rw [List.cons_append, ClausePhrase.readAll_cons (h.read hb), List.drop_left]

theorem readAll_flatten {cs : List FreeClause} {lss : List (List Lexeme)}
    (h : List.Forall₂ Spelled cs lss) (hb : Begins rest) :
    Clause.readAll (lss.flatten ++ rest) = cs.map clause ++ Clause.readAll rest := by
  induction h with
  | nil => rfl
  | cons hc h ih =>
    rw [List.flatten_cons, List.append_assoc, hc.readAll (begins_flatten h hb), ih, List.map_cons,
      List.cons_append]

theorem apart_flatten {cs : List FreeClause} {lss : List (List Lexeme)}
    (h : List.Forall₂ Spelled cs lss) : Apart lss.flatten := by
  induction h with
  | nil => exact apart_nil
  | cons hc _ ih => exact hc.apart.append ih

end FreeClause

/-- Of the elements that `p` picks there is only one. -/
theorem eq_of_countP_le_one {α : Type} {p : α → Bool} {l : List α} (h : l.countP p ≤ 1) {x y : α}
    (hx : x ∈ l) (hy : y ∈ l) (hpx : p x = true) (hpy : p y = true) : x = y := by
  have hx' : x ∈ l.filter p := List.mem_filter.2 ⟨hx, hpx⟩
  have hy' : y ∈ l.filter p := List.mem_filter.2 ⟨hy, hpy⟩
  rw [List.countP_eq_length_filter] at h
  rcases hl : l.filter p with _ | ⟨a, _ | ⟨b, t⟩⟩
  · simp [hl] at hx'
  · rw [hl, List.mem_singleton] at hx' hy'
    rw [hx', hy']
  · simp [hl] at h

namespace Draft

/-- A default leaves alone what the other clauses set, or sets it to the same. -/
theorem add_default_comm (raw : Text) {y : FreeClause} (hy : y.isDefault = false) (d : Draft) :
    (d.add (.defaultValue raw)).add y.clause = (d.add y.clause).add (.defaultValue raw) := by
  cases y with
  | defaultValue => cases hy
  | autoIncrement | comment | notNull | unsigned =>
    simp only [FreeClause.clause, add, setDefault]
    split <;> rfl
  | _ => rfl

/-- Two clauses set different parts of a column, unless both are comments or both defaults. -/
theorem add_right_comm {x y : FreeClause} (hc : x.isComment = true → y.isComment = false)
    (hd : x.isDefault = true → y.isDefault = false) (d : Draft) :
    (d.add x.clause).add y.clause = (d.add y.clause).add x.clause := by
  cases hx : x.isDefault with
  | true =>
    cases x with
    | defaultValue raw => exact add_default_comm raw (hd rfl) d
    | _ => cases hx
  | false =>
    cases y with
    | defaultValue raw => exact (add_default_comm raw hx d).symm
    | comment text =>
      cases x with
      | comment => cases hc rfl
      | defaultValue => cases hx
      | _ => rfl
    | _ =>
      cases x with
      | defaultValue => cases hx
      | _ => rfl

/-- The order of the clauses does not matter, as long as only one of them is a comment and only
one a default. -/
theorem foldl_perm {cs cs' : List FreeClause} (hp : cs.Perm cs')
    (hc : cs.countP FreeClause.isComment ≤ 1) (hd : cs.countP FreeClause.isDefault ≤ 1)
    (d : Draft) :
    (cs.map FreeClause.clause).foldl add d = (cs'.map FreeClause.clause).foldl add d := by
  rw [List.foldl_map, List.foldl_map]
  refine hp.foldl_eq' (fun x hx y hy z => ?_) d
  by_cases hxy : x = y
  · rw [hxy]
  · refine add_right_comm (fun hcx => ?_) (fun hdx => ?_) z
    · exact Bool.eq_false_iff.2 fun hcy => hxy (eq_of_countP_le_one hc hx hy hcx hcy)
    · exact Bool.eq_false_iff.2 fun hdy => hxy (eq_of_countP_le_one hd hx hy hdx hdy)

private theorem setDefault_name (c : Column) (raw : Text) : (setDefault c raw).name = c.name := by
  unfold setDefault
  split <;> rfl

/-- The problems of a column are its missing defaults. -/
theorem problems_foldl (cs : List Clause) (d : Draft) : (cs.foldl add d).problems =
    d.problems ++ List.replicate (cs.count .missingDefault) (.malformedDefault d.column.name) := by
  induction cs generalizing d with
  | nil => simp
  | cons c cs ih =>
    rw [List.foldl_cons, ih]
    cases c with
    | missingDefault => simp [add, List.replicate_succ]
    | defaultValue raw => simp [add, setDefault_name]
    | _ => simp [add]

theorem onUpdate_foldl {cs : List Clause} (h : ∀ raw, .onUpdate raw ∉ cs) (d : Draft) :
    (cs.foldl add d).onUpdate = d.onUpdate := by
  induction cs generalizing d with
  | nil => rfl
  | cons c cs ih =>
    rw [List.foldl_cons, ih fun raw hm => h raw (List.mem_cons_of_mem c hm)]
    cases c with
    | onUpdate raw => exact absurd List.mem_cons_self (h raw)
    | _ => rfl

/-- The first default counts. -/
theorem defaultValue_foldl {v : Text} (cs : List Clause) {d : Draft}
    (h : d.column.defaultValue = some v) : (cs.foldl add d).column.defaultValue = some v := by
  induction cs generalizing d with
  | nil => exact h
  | cons c cs ih =>
    refine ih ?_
    cases c with
    | defaultValue raw =>
      simp only [add, setDefault]
      split
      · exact h
      · simp [h]
    | _ => exact h

private theorem problems_clauses (cs : List FreeClause) (d : Draft) :
    ((cs.map FreeClause.clause).foldl add d).problems = d.problems := by
  have hnone : Clause.missingDefault ∉ cs.map FreeClause.clause := by
    intro hm
    obtain ⟨c, -, hc⟩ := List.mem_map.1 hm
    cases c <;> cases hc
  rw [problems_foldl, List.count_eq_zero.2 hnone, List.replicate_zero, List.append_nil]

theorem onUpdate_clauses (cs : List FreeClause) (d : Draft) :
    ((cs.map FreeClause.clause).foldl add d).onUpdate = d.onUpdate := by
  refine onUpdate_foldl (fun raw hm => ?_) d
  obtain ⟨c, -, hc⟩ := List.mem_map.1 hm
  cases c <;> cases hc

theorem finish_of_none {d : Draft} (h : d.onUpdate = none) : d.finish = d := by
  rw [finish, h]

end Draft

namespace Lexeme

/-- A list of numbers up to the parenthesis that closes it. -/
inductive Numbers : List Lexeme → Prop
  | last {g ds g' : Text} (hg : ∀ c ∈ g, isSeparator c = true) (hd : IsNumber ds)
      (hg' : ∀ c ∈ g', isSeparator c = true) :
      Numbers [⟨g, ds, .number ds⟩, ⟨g', [')'], .closeParen⟩]
  | more {g ds g' : Text} {ls : List Lexeme} (hg : ∀ c ∈ g, isSeparator c = true)
      (hd : IsNumber ds) (hg' : ∀ c ∈ g', isSeparator c = true) (h : Numbers ls) :
      Numbers (⟨g, ds, .number ds⟩ :: ⟨g', [','], .comma⟩ :: ls)

/-- Numbers in parentheses. -/
structure IsLength (l : Lexeme) (ls : List Lexeme) : Prop where
  gap : ∀ c ∈ l.gap, isSeparator c = true
  text : l.text = ['(']
  token : l.token = .openParen
  numbers : Numbers ls

variable {ls rest : List Lexeme}

private theorem clear_number {g ds g' r : Text} {c : Char} {k : Token}
    (hg : ∀ c ∈ g, isSeparator c = true) (hd : IsNumber ds)
    (hg' : ∀ c ∈ g', isSeparator c = true) (hc : Token.isBreak c = true) :
    ClearOf ⟨g, ds, .number ds⟩ (source (⟨g', [c], k⟩ :: ls) ++ r) := by
  have hb : Token.breaks (source (⟨g', [c], k⟩ :: ls) ++ r) = true := by
    cases g' with
    | nil => simpa [Token.breaks] using hc
    | cons d g' => simp [Token.breaks, Token.isBreak, hg' d]
  exact @ClearOf.congr _ [] [] _ ⟨hg, hd.startsToken [], hd.written⟩ hb

private theorem Numbers.clear (h : Numbers ls) : Clear ls [] := by
  induction h with
  | last hg hd hg' =>
    exact ⟨clear_number hg hd hg' (by decide), clearOf_delimiter hg' (by simp) _, trivial⟩
  | more hg hd hg' _ ih =>
    exact ⟨clear_number hg hd hg' (by decide), clearOf_delimiter hg' (by simp) _, ih⟩

private theorem Numbers.closing? (h : Numbers ls) (rest : List Lexeme) :
    (Token.closing? 1 ((ls ++ rest).map (·.token))).map (· + 1) = some ls.length := by
  induction h with
  | last => rfl
  | more _ _ _ _ ih =>
    simp only [List.cons_append, List.map_cons, Token.closing?, Option.map_map, List.length_cons]
    obtain ⟨n, hn, hlength⟩ := Option.map_eq_some_iff.1 ih
    rw [hn, ← hlength]
    rfl

private theorem Numbers.word?_head (h : Numbers ls) (rest : List Lexeme) :
    ((ls ++ rest)[0]?.map (·.token)).any (·.word?.isSome) = false := by
  cases h <;> rfl

private theorem IsLength.groupLength {l : Lexeme} (h : IsLength l ls) (rest : List Lexeme) :
    groupLength (l :: ls ++ rest) = (l :: ls).length := by
  have hc : Token.closing? 0 ((l :: ls ++ rest).map (·.token)) = some ls.length := by
    rw [List.cons_append, List.map_cons, h.token, Token.closing?, h.numbers.closing? rest]
  rw [Lexeme.groupLength, Token.groupEnd, List.drop_zero, hc]
  simp

/-- What follows a group does not bear on the text inside it. -/
theorem groupText_append (h : groupLength (ls ++ rest) = ls.length)
    (h' : groupLength ls = ls.length) : groupText (ls ++ rest) = groupText ls := by
  simp only [groupText, groupInner, h, h', List.take_left, List.take_length]

end Lexeme

/-- The name and the type of a column, with the length of the type if there is one. -/
structure ColumnHead where
  name : Lexeme
  type : Lexeme
  length : List Lexeme

namespace ColumnHead

def lexemes (h : ColumnHead) : List Lexeme := h.name :: h.type :: h.length

/-- A column with a bare name other than `CONSTRAINT` and a type of one word that is recognized. -/
structure WellFormed (h : ColumnHead) : Prop where
  name_gap : ∀ c ∈ h.name.gap, isSeparator c = true
  name : IsBare h.name.text h.name
  name_ne : Text.same h.name.text "CONSTRAINT" = false
  type_gap : IsGap h.type.gap
  type : IsBare h.type.text h.type
  recognized : ColumnType.isRecognized h.type.text = true
  length : h.length = [] ∨ ∃ l ls, IsLength l ls ∧ h.length = l :: ls

/-- What stands between the parentheses of the length. -/
def lengthText (h : ColumnHead) : Text :=
  if leadingGroup h.length = 0 then [] else Text.trim (groupText h.length)

variable {h : ColumnHead} {rest : List Lexeme}

private theorem apart_length (hw : h.WellFormed) : Apart h.length := by
  obtain hn | ⟨l, ls, hl, hn⟩ := hw.length
  · rw [hn]
    exact apart_nil
  · rw [hn]
    have hopen : ClearOf l (source ls ++ []) := by
      have := @clearOf_delimiter l.gap hl.gap '(' .openParen (by simp) (source ls ++ [])
      rwa [← hl.text, ← hl.token] at this
    refine ⟨⟨hopen, hl.numbers.clear⟩, ?_⟩
    rw [source_cons, hl.text]
    cases hg : l.gap with
    | nil => simp [Token.breaks, Token.isBreak]
    | cons c g => simp [Token.breaks, Token.isBreak, hl.gap c (by simp [hg])]

private theorem leadingGroup_length (hw : h.WellFormed) (hb : FreeClause.Begins rest) :
    leadingGroup (h.length ++ rest) = h.length.length := by
  obtain hn | ⟨l, ls, hl, hn⟩ := hw.length
  · rw [hn]
    exact FreeClause.leadingGroup_of_begins hb
  · rw [hn, leadingGroup, hl.groupLength rest, List.cons_append, List.head?_cons, Option.map_some,
      hl.token, if_pos rfl]

private theorem lengthText_eq (hw : h.WellFormed) (hb : FreeClause.Begins rest) :
    (if leadingGroup (h.length ++ rest) = 0 then []
      else Text.trim (groupText (h.length ++ rest))) = h.lengthText := by
  have hnil : leadingGroup h.length = h.length.length := by
    simpa using @leadingGroup_length h [] hw (by simp [FreeClause.Begins])
  rw [lengthText, leadingGroup_length hw hb, hnil]
  obtain hn | ⟨l, ls, hl, hn⟩ := hw.length
  · simp [hn]
  · have := hl.groupLength []
    rw [List.append_nil] at this
    rw [hn, groupText_append (hl.groupLength rest) this]

private theorem zone?_of_begins (hb : FreeClause.Begins rest) : Column.zone? rest = none := by
  match rest, hb with
  | [], _ | [_], _ | [_, _], _ => rfl
  | _ :: _ :: _ :: _, hb =>
    have hwith := FreeClause.isWord_of_begins (v := "with") hb (by decide)
    have hwithout := FreeClause.isWord_of_begins (v := "without") hb (by decide)
    simp [Column.zone?, hwith, hwithout]

/-- The clauses are read from what follows the length of the type. -/
theorem read_length (hw : h.WellFormed) (hb : FreeClause.Begins rest) (name type : Text) :
    Column.read name type (h.length ++ rest) =
      ((Clause.readAll rest).foldl Draft.add (Column.draft name type h.lengthText)).finish := by
  have hz : Column.zoneAfter? type rest = none := by
    unfold Column.zoneAfter?
    split
    · exact zone?_of_begins hb
    · rfl
  simp only [Column.read, lengthText_eq hw hb]
  simp only [leadingGroup_length hw hb, List.drop_left, hz, Option.isSome_none,
    Bool.false_eq_true, if_false, Option.getD_none, List.append_nil]

private theorem nextIs_length (hw : h.WellFormed) (hb : FreeClause.Begins rest) {v : String}
    (hv : ∀ w ∈ FreeClause.firstWords, Text.same w.toList v.toList = false) :
    nextIs v (h.length ++ rest) = false := by
  obtain hn | ⟨l, ls, hl, hn⟩ := hw.length
  · rw [hn]
    exact FreeClause.nextIs_of_begins hb hv
  · rw [hn, List.cons_append, nextIs, hl.token]
    rfl

/-- The type is one word, since no clause goes on with its name. -/
theorem typeName?_type (hw : h.WellFormed) (hb : FreeClause.Begins rest) :
    Fragment.typeName? (h.type :: (h.length ++ rest)) =
      some (h.type.text, h.length ++ rest) := by
  have hprecision := nextIs_length (v := "precision") hw hb (by decide)
  have hvarying := nextIs_length (v := "varying") hw hb (by decide)
  simp only [Fragment.typeName?_cons, hw.type.token, Token.word?, Option.map_some, hprecision,
    hvarying, Bool.and_false, Bool.or_false, Bool.false_eq_true, if_false]

/-- No column is taken for an index, since what stands in the length of its type is no name. -/
theorem isNamedIndex_lexemes (hw : h.WellFormed) (hb : FreeClause.Begins rest) :
    Fragment.isNamedIndex (h.lexemes ++ rest) = false := by
  have hconstraint : h.name.token.isWord "CONSTRAINT" = false := by
    rw [hw.name.token]
    exact hw.name_ne
  have hindex : ((h.length ++ rest)[0]?.map (·.token) == some .openParen &&
      ((h.length ++ rest)[1]?.map (·.token)).any (·.word?.isSome)) = false := by
    obtain hn | ⟨l, ls, hl, hn⟩ := hw.length
    · rw [hn]
      cases rest with
      | nil => rfl
      | cons l rest =>
        obtain ⟨w, -, hl⟩ := hb l rfl
        simp [hl.bare.token]
    · have hword := hl.numbers.word?_head rest
      rw [hn, List.cons_append, List.getElem?_cons_succ, hword, Bool.and_false]
  simp only [Fragment.isNamedIndex, lexemes, List.cons_append, hconstraint,
    List.getElem?_cons_succ, Bool.and_assoc, hindex, Bool.and_false, Bool.false_eq_true, if_false]

private theorem name?_name (hw : h.WellFormed) : h.name.token.name? = some h.name.text := by
  rw [hw.name.token]
  rfl

private theorem clear_lexemes (hw : h.WellFormed) (ha : Apart rest) :
    Clear (h.lexemes ++ rest) [] := by
  have hafter : Apart (h.type :: (h.length ++ rest)) :=
    (hw.type.apart hw.type_gap).append ((apart_length hw).append ha)
  exact @clear_append_apart [h.name] _ (hw.name.clear hw.name_gap) hafter

/-- The column `c` of type `INT`. -/
def int : ColumnHead := ⟨⟨[], "c", .word "c"⟩, keyword "INT", []⟩

theorem wellFormed_int : int.WellFormed where
  name_gap := List.forall_mem_nil _
  name := ⟨by decide, rfl, rfl⟩
  name_ne := by decide
  type_gap := isGap_space
  type := ⟨by decide, rfl, rfl⟩
  recognized := by decide
  length := .inl rfl

end ColumnHead

namespace Fragment

/-- A column is read from its head and what follows it. -/
theorem read_column {h : ColumnHead} (hw : h.WellFormed) {rest : List Lexeme}
    (hb : FreeClause.Begins rest) (ha : Apart rest) {u : Text}
    (hu : ∀ c ∈ u, isSeparator c = true) :
    let d := ((Clause.readAll rest).foldl Draft.add
      (Column.draft h.name.text h.type.text h.lengthText)).finish
    read (tokenize (source (h.lexemes ++ rest) ++ u)) =
      { result := .ok (.column d.column d.inlinePrimary), problems := d.problems } := by
  have hclear := ColumnHead.clear_lexemes hw ha
  have hlex := lex_source (@Clear.congr _ [] u hclear ?_) hu
  · have hcolumn := ColumnHead.read_length hw hb h.name.text h.type.text
    have hindex := ColumnHead.isNamedIndex_lexemes hw hb
    have htype := ColumnHead.typeName?_type hw hb
    rw [tokenize, hlex]
    simp only [ColumnHead.lexemes, List.cons_append] at hindex ⊢
    simp only [read, ColumnHead.name?_name hw, hindex, Bool.false_eq_true, if_false, readNamed,
      htype, Option.filter_some, hw.recognized, if_true, hcolumn]
  · cases u with
    | nil => rfl
    | cons c u => simp [Token.breaks, Token.isBreak, hu c]

/-- A column is read from its head and its clauses. -/
theorem read_head {h : ColumnHead} (hw : h.WellFormed) {cs : List FreeClause}
    {lss : List (List Lexeme)} (hs : List.Forall₂ FreeClause.Spelled cs lss) {u : Text}
    (hu : ∀ c ∈ u, isSeparator c = true) :
    let d := ((cs.map FreeClause.clause).foldl Draft.add
      (Column.draft h.name.text h.type.text h.lengthText)).finish
    read (tokenize (source (h.lexemes ++ lss.flatten) ++ u)) =
      { result := .ok (.column d.column d.inlinePrimary), problems := d.problems } := by
  have hb := FreeClause.begins_flatten hs FreeClause.begins_nil
  have hreadAll := FreeClause.readAll_flatten hs FreeClause.begins_nil
  rw [List.append_nil] at hb hreadAll
  rw [Clause.readAll, List.append_nil] at hreadAll
  rw [← hreadAll]
  exact read_column hw hb (FreeClause.apart_flatten hs) hu

/-- The clauses of a column may stand in any order. -/
theorem read_perm {h : ColumnHead} (hw : h.WellFormed) {cs cs' : List FreeClause}
    (hp : cs.Perm cs') (hc : cs.countP FreeClause.isComment ≤ 1)
    (hd : cs.countP FreeClause.isDefault ≤ 1) {lss lss' : List (List Lexeme)}
    (hs : List.Forall₂ FreeClause.Spelled cs lss) (hs' : List.Forall₂ FreeClause.Spelled cs' lss')
    {u v : Text} (hu : ∀ c ∈ u, isSeparator c = true) (hv : ∀ c ∈ v, isSeparator c = true) :
    ∃ (c : Column) (inlinePrimary : Bool) (problems : List Problem),
      (ColumnType.isEnumeration h.type.text = false → problems = []) ∧
      read (tokenize (source (h.lexemes ++ lss.flatten) ++ u)) =
        { result := .ok (.column c inlinePrimary), problems } ∧
      read (tokenize (source (h.lexemes ++ lss'.flatten) ++ v)) =
        { result := .ok (.column c inlinePrimary), problems } := by
  have hread := read_head hw hs hu
  have hread' := read_head hw hs' hv
  rw [← Draft.foldl_perm hp hc hd] at hread'
  refine ⟨_, _, _, fun he => ?_, hread, hread'⟩
  rw [Draft.problems_finish, Draft.problems_clauses]
  simp only [Column.draft, he, Bool.false_eq_true, if_false]

theorem read_perm_three : ∃ (c : Column) (inlinePrimary : Bool) (problems : List Problem),
    (ColumnType.isEnumeration "INT" = false → problems = []) ∧
    read (tokenize "id INT(10) NOT NULL DEFAULT -5 COMMENT 'a b'") =
      { result := .ok (.column c inlinePrimary), problems } ∧
    read (tokenize "id INT(10) comment 'a b'\n\tDEFAULT -5 NOT NULL ") =
      { result := .ok (.column c inlinePrimary), problems } := by
  have hbreak : IsGap ['\n', '\t'] := ⟨by decide, by simp [isSeparator]⟩
  have hquotes : Token.Quotes '\'' "a b" "a b'" := Token.quotes_doubled (.inr (by decide))
  have hnumber : ∀ ds ∈ ["5".toList, "10".toList], IsNumber ds := fun ds hd =>
    ⟨by revert ds; decide, .whole (List.all_eq_true.1 (by revert ds; decide)) rfl⟩
  let head : ColumnHead := ⟨⟨[], "id", .word "id"⟩, keyword "INT",
    [⟨[], ['('], .openParen⟩, ⟨[], "10", .number "10"⟩, ⟨[], [')'], .closeParen⟩]⟩
  have hhead : head.WellFormed :=
    { name_gap := List.forall_mem_nil _
      name := ⟨by decide, rfl, rfl⟩
      name_ne := by decide
      type_gap := isGap_space
      type := ⟨by decide, rfl, rfl⟩
      recognized := by decide
      length := .inr ⟨_, _, ⟨by simp, rfl, rfl,
        .last (by simp) (hnumber _ (by simp)) (by simp)⟩, rfl⟩ }
  have hnull : FreeClause.Spelled .notNull [keyword "NOT", keyword "NULL"] :=
    .notNull (isKeyword_keyword (by decide)) (isKeyword_keyword (by decide))
  have hdefault : DefaultValue.Spelled ('-' :: "5".toList)
      [⟨[' '], ['-'], .punct '-'⟩, ⟨[], "5", .number "5"⟩] :=
    .signed isGap_space (.inl rfl) (hnumber _ (by simp))
  have hcomment : ∀ w ∈ ["COMMENT".toList, "comment".toList], FreeClause.Spelled (.comment "a b")
      [keyword w, ⟨[' '], '\'' :: "a b'", .quoted '\'' "a b"⟩] := fun w hw =>
    .comment ⟨isGap_space, ⟨by revert w; decide, rfl, rfl⟩, by revert w; decide⟩ isGap_space
      (.inl rfl) hquotes
  have hbroken : IsKeyword "DEFAULT" ⟨['\n', '\t'], "DEFAULT", .word "DEFAULT"⟩ :=
    ⟨hbreak, ⟨by decide, rfl, rfl⟩, by decide⟩
  have hperm : [FreeClause.notNull, .defaultValue ('-' :: "5".toList), .comment "a b"].Perm
      [.comment "a b", .defaultValue ('-' :: "5".toList), .notNull] := by decide
  have h := read_perm hhead hperm (by decide) (by decide)
    (.cons hnull (.cons (.defaultValue (isKeyword_keyword (by decide)) hdefault)
      (.cons (hcomment "COMMENT" (by simp)) .nil)))
    (.cons (hcomment "comment" (by simp)) (.cons (.defaultValue hbroken hdefault)
      (.cons hnull .nil)))
    (u := []) (by simp) (v := [' ']) (by simp [isSeparator])
  exact h

end Fragment

end TableDialects
