import TableDialects.Proofs.Column.ClauseOrder

/-!
# Columns of any type

A type is written as one word or two, with a list in parentheses behind it or none, and with a time
zone or none. The clauses of the column are read from what follows it.
-/
namespace TableDialects

open Lexeme

/-- The lexemes of a type, apart. -/
structure TypeSpelling where
  /-- The name without its zone. -/
  base : Text
  words : List Lexeme
  arguments : List Lexeme := []
  /-- The zone as it is added to the name. -/
  zoneName : Text := []
  zone : List Lexeme := []

namespace TypeSpelling

/-- The words are the name: one, or two that belong together. -/
inductive SpellsName : Text → List Lexeme → Prop
  | word {w : Text} {l : Lexeme} (hg : IsGap l.gap) (h : IsBare w l) : SpellsName w [l]
  | double {a b : Lexeme} (ha : IsKeyword "double" a) (hb : IsKeyword "precision" b) :
      SpellsName (a.text ++ ' ' :: b.text) [a, b]
  | character {a b : Lexeme} (ha : IsKeyword "character" a) (hb : IsKeyword "varying" b) :
      SpellsName (a.text ++ ' ' :: b.text) [a, b]

/-- Nothing, or a list in parentheses. -/
inductive SpellsArguments : List Lexeme → Prop
  | absent : SpellsArguments []
  | list {g g' : Text} {es : List (List Lexeme)} (hg : ∀ c ∈ g, isSeparator c = true)
      (hg' : ∀ c ∈ g', isSeparator c = true)
      (he : ∀ e ∈ es, Clear e [] ∧ Token.Enclosed (e.map (·.token))) :
      SpellsArguments (group g es g')

/-- Nothing, or the words of a time zone. -/
inductive SpellsZone : Text → List Lexeme → Prop
  | absent : SpellsZone [] []
  | withZone {a b c : Lexeme} (ha : IsKeyword "with" a) (hb : IsKeyword "time" b)
      (hc : IsKeyword "zone" c) : SpellsZone " with time zone" [a, b, c]
  | withoutZone {a b c : Lexeme} (ha : IsKeyword "without" a) (hb : IsKeyword "time" b)
      (hc : IsKeyword "zone" c) : SpellsZone " without time zone" [a, b, c]

variable (t : TypeSpelling)

def lexemes : List Lexeme := t.words ++ (t.arguments ++ t.zone)

def typeName : Text := t.base ++ t.zoneName

/-- What stands between the parentheses. -/
def length : Text := if t.arguments = [] then [] else Text.trim (groupText t.arguments)

/-- A type that is recognized. Only a time has a zone. -/
structure WellFormed : Prop where
  words : SpellsName t.base t.words
  recognized : ColumnType.isRecognized t.base = true
  arguments : SpellsArguments t.arguments
  zone : SpellsZone t.zoneName t.zone
  zoned : t.zone ≠ [] → Text.oneOf ["time", "timestamp"] (Text.lower t.base) = true

/-- What follows does not go on with a type. -/
def Ends (rest : List Lexeme) : Prop :=
  ∀ l ∈ rest.head?, l.token ≠ .openParen ∧
    l.token.isOneOf ["precision", "varying", "with", "without"] = false

variable {t} {rest : List Lexeme}

private theorem SpellsName.apart {base : Text} {words : List Lexeme} (h : SpellsName base words) :
    Apart words := by
  cases h with
  | word hg h => exact h.apart hg
  | double ha hb | character ha hb => exact ha.apart.append hb.apart

private theorem SpellsArguments.apart {arguments : List Lexeme} (h : SpellsArguments arguments) :
    Apart arguments := by
  cases h with
  | absent => exact apart_nil
  | list hg hg' he => exact apart_group hg hg' fun e hm => (he e hm).1

private theorem SpellsZone.apart {name : Text} {zone : List Lexeme} (h : SpellsZone name zone) :
    Apart zone := by
  cases h with
  | absent => exact apart_nil
  | withZone ha hb hc | withoutZone ha hb hc => exact ha.apart.append (hb.apart.append hc.apart)

private theorem apart_lexemes (h : t.WellFormed) : Apart t.lexemes :=
  h.words.apart.append (h.arguments.apart.append h.zone.apart)

theorem isOneOf_of_isKeyword {k : String} {l : Lexeme} (h : IsKeyword k l) (ws : List String) :
    l.token.isOneOf ws = Text.oneOf ws k :=
  Token.isOneOf_of_isWord h.isWord ws

private theorem SpellsName.typeName? {base : Text} {words ls : List Lexeme}
    (h : SpellsName base words)
    (hl : ∀ l ∈ ls.head?, l.token.isOneOf ["precision", "varying"] = false) :
    Fragment.typeName? (words ++ ls) = some (base, ls) := by
  cases h with
  | word hg h =>
    have hnext : nextIs "precision" ls = false ∧ nextIs "varying" ls = false := by
      cases ls with
      | nil => exact ⟨rfl, rfl⟩
      | cons l ls => simpa [Token.isOneOf_eq_any, nextIs] using hl l rfl
    simp only [List.singleton_append, Fragment.typeName?_cons, h.token, Token.word?,
      Option.map_some, hnext, Bool.and_false, Bool.or_false, Bool.false_eq_true, if_false]
  | double ha hb | character ha hb =>
    have hfirst := ha.same
    have hsecond : nextIs _ (_ :: ls) = true := hb.isWord
    simp only [List.cons_append, List.nil_append, Fragment.typeName?_cons, ha.bare.token,
      Token.word?, Option.map_some, hfirst, hsecond, Bool.and_self, Bool.true_or, Bool.or_true,
      if_true, List.head?_cons, Option.bind_some, hb.bare.token, Option.getD_some, List.drop_one,
      List.tail_cons]

private theorem SpellsZone.head? {name : Text} {zone : List Lexeme} (h : SpellsZone name zone)
    (he : Ends rest) : ∀ l ∈ (zone ++ rest).head?, l.token ≠ .openParen ∧
      l.token.isOneOf ["precision", "varying"] = false := by
  intro l hl
  cases h with
  | absent =>
    obtain ⟨hopen, hnone⟩ := he l hl
    refine ⟨hopen, ?_⟩
    simp only [Token.isOneOf_eq_any, List.any_cons, List.any_nil, Bool.or_false,
      Bool.or_eq_false_iff] at hnone ⊢
    exact ⟨hnone.1, hnone.2.1⟩
  | withZone ha | withoutZone ha =>
    obtain rfl := Option.some.inj hl
    exact ⟨by simp [ha.bare.token], (isOneOf_of_isKeyword ha _).trans (by decide)⟩

private theorem SpellsZone.zone? {name : Text} {zone : List Lexeme} (h : SpellsZone name zone)
    (he : Ends rest) :
    Column.zone? (zone ++ rest) = if zone = [] then none else some name := by
  cases h with
  | absent =>
    match rest, he with
    | [], _ | [_], _ | [_, _], _ => rfl
    | l :: _ :: _ :: _, he =>
      have hnone := (he l rfl).2
      simp only [Token.isOneOf_eq_any, List.any_cons, List.any_nil, Bool.or_false,
        Bool.or_eq_false_iff] at hnone
      simp [Column.zone?, hnone]
  | withZone ha hb hc =>
    simp only [List.cons_append, Column.zone?, ha.isWord, hb.isWord, hc.isWord, Bool.and_self,
      if_true]
    rfl
  | withoutZone ha hb hc =>
    have hwith := (Token.isWord_of_isWord (w := "with") ha.isWord).trans (by decide : _ = false)
    simp only [List.cons_append, Column.zone?, ha.isWord, hb.isWord, hc.isWord, hwith,
      Bool.and_self, Bool.false_eq_true, if_true, if_false]
    rfl

section
variable {arguments ls : List Lexeme} (h : SpellsArguments arguments)
include h

private theorem SpellsArguments.head? {ws : List String}
    (hl : ∀ l ∈ ls.head?, l.token.isOneOf ws = false) :
    ∀ l ∈ (arguments ++ ls).head?, l.token.isOneOf ws = false := by
  cases h with
  | absent => exact hl
  | list =>
    intro l hl
    obtain rfl := Option.some.inj hl
    rfl

private theorem SpellsArguments.leadingGroup (hl : ∀ l ∈ ls.head?, l.token ≠ .openParen) :
    leadingGroup (arguments ++ ls) = arguments.length := by
  cases h with
  | absent =>
    cases ls with
    | nil => rfl
    | cons l ls => simp [Lexeme.leadingGroup, hl l rfl]
  | list hg hg' he => exact leadingGroup_group (fun e hm => (he e hm).2) ls

private theorem SpellsArguments.groupText (hne : arguments ≠ []) (ls : List Lexeme) :
    groupText (arguments ++ ls) = groupText arguments := by
  cases h with
  | absent => exact absurd rfl hne
  | @list g g' es hg hg' he =>
    have hinner := fun e hm => (he e hm).2
    have hself := @groupText_group g g' es hinner []
    rw [List.append_nil] at hself
    rw [groupText_group hinner, hself]

end

/-- The name, the list and the zone are found where they stand. -/
theorem typeName?_lexemes (h : t.WellFormed) (he : Ends rest) :
    Fragment.typeName? (t.lexemes ++ rest) = some (t.base, t.arguments ++ (t.zone ++ rest)) := by
  have hzone := h.zone.head? he
  rw [lexemes, List.append_assoc, List.append_assoc]
  exact h.words.typeName? (h.arguments.head? fun l hl => (hzone l hl).2)

end TypeSpelling

/-- Before its clauses are read a column has its type, and only the type may make it count up. -/
theorem Column.draft_eq (name typeName length : Text) : ∃ values problems,
    Column.draft name typeName length =
      { column := { name, typeName, length, autoIncrement := ColumnType.isSerial typeName, values }
        problems } := by
  unfold Column.draft
  split
  · exact ⟨_, _, rfl⟩
  · exact ⟨_, _, rfl⟩

/-- The clauses of a column are read from what follows its type. -/
theorem Column.read_spelled {t : TypeSpelling} (h : t.WellFormed) {rest : List Lexeme}
    (he : TypeSpelling.Ends rest) (name : Text) :
    Column.read name t.base (t.arguments ++ (t.zone ++ rest)) =
      ((Clause.readAll rest).foldl Draft.add (Column.draft name t.typeName t.length)).finish := by
  have hgroup := h.arguments.leadingGroup fun l hl => (h.zone.head? he l hl).1
  have hlength : (if leadingGroup (t.arguments ++ (t.zone ++ rest)) = 0 then []
      else Text.trim (groupText (t.arguments ++ (t.zone ++ rest)))) = t.length := by
    rw [hgroup, TypeSpelling.length]
    by_cases hnil : t.arguments = []
    · rw [if_pos hnil, if_pos (List.length_eq_zero_iff.2 hnil)]
    · rw [if_neg hnil, if_neg (List.length_eq_zero_iff.not.2 hnil), h.arguments.groupText hnil]
  have hzone : Column.zoneAfter? t.base (t.zone ++ rest) =
      if t.zone = [] then none else some t.zoneName := by
    unfold Column.zoneAfter?
    split
    · exact h.zone.zone? he
    · next hbase =>
      have hnone : t.zone = [] := by
        by_contra hne
        exact hbase (h.zoned hne)
      rw [if_pos hnone]
  have hrest : (if (Column.zoneAfter? t.base (t.zone ++ rest)).isSome then
      (t.zone ++ rest).drop 3 else t.zone ++ rest) = rest ∧
      (Column.zoneAfter? t.base (t.zone ++ rest)).getD [] = t.zoneName := by
    rw [hzone]
    have hspelled := h.zone
    generalize t.zone = zone at hspelled
    generalize t.zoneName = zoneName at hspelled
    cases hspelled <;> exact ⟨rfl, rfl⟩
  rw [Column.read]
  simp only [hlength]
  simp only [hgroup, List.drop_left, hrest, TypeSpelling.typeName]

/-- A column that has a bare name and a recognized type is read from its clauses. -/
theorem Fragment.read_spelled {t : TypeSpelling} (h : t.WellFormed) {rest : List Lexeme}
    (he : TypeSpelling.Ends rest) (ha : Apart rest) {name : Text} (hname : IsWord name)
    (hindex : Text.oneOf ["CONSTRAINT", "KEY", "INDEX", "FULLTEXT", "SPATIAL"] name = false) :
    let d := ((Clause.readAll rest).foldl Draft.add (Column.draft name t.typeName t.length)).finish
    Fragment.read (tokenize (name ++ source (t.lexemes ++ rest))) =
      { result := .ok (.column d.column d.inlinePrimary), problems := d.problems } := by
  have hafter : Apart (t.lexemes ++ rest) := (TypeSpelling.apart_lexemes h).append ha
  have hfirst : IsBare name ⟨[], name, .word name⟩ := ⟨hname, rfl, rfl⟩
  have hclear : Clear (⟨[], name, .word name⟩ :: (t.lexemes ++ rest)) [] :=
    @clear_append_apart [_] _ (hfirst.clear (List.forall_mem_nil _)) hafter
  have htokens := tokenize_source hclear
  rw [source_cons, List.nil_append] at htokens
  have hnamed : Fragment.isNamedIndex (⟨[], name, .word name⟩ :: (t.lexemes ++ rest)) = false := by
    simp only [Text.oneOf, List.any_cons, List.any_nil, Bool.or_false, Bool.or_eq_false_iff]
      at hindex
    simp only [Fragment.isNamedIndex, Token.isWord, Token.isOneOf, Text.oneOf, List.any_cons,
      List.any_nil, Bool.or_false, hindex, Bool.false_and, Bool.and_false, Bool.false_eq_true,
      if_false]
  have hself : (Token.word name).name? = some name := rfl
  rw [htokens]
  simp only [Fragment.read, hself, hnamed, Bool.false_eq_true, if_false, Fragment.readNamed,
    TypeSpelling.typeName?_lexemes h he, Option.filter_some, h.recognized, if_true,
    Column.read_spelled h he]

end TableDialects
