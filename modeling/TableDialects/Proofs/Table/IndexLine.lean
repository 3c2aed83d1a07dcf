import TableDialects.Proofs.Column.Typed
import TableDialects.Proofs.ColumnType.Lettercase
import TableDialects.Proofs.Table.Body

/-!
# Index lines

An index line has keywords, a name and a list of columns. It is told from a column whatever the
names are, unless the name of a unique index follows its keyword at once: such a line is taken for a
column if the index has the name of a type.
-/
namespace TableDialects

open Lexeme

namespace Fragment

theorem afterKey?_cons {keyword : String} {l : Lexeme} {ls : List Lexeme}
    (h : (l.token.isWord keyword && nextIs "KEY" ls) = false) :
    afterKey? keyword (l :: ls) = afterKey? keyword ls := by
  rw [afterKey?, h, if_neg Bool.false_ne_true]

private theorem afterKey?_append {ls rest : List Lexeme} (keyword : String)
    (h : ∀ l ∈ ls, l.token.isWord "KEY" = false) (hrest : nextIs "KEY" rest = false) :
    nextIs "KEY" (ls ++ rest) = false ∧
      afterKey? keyword (ls ++ rest) = afterKey? keyword rest := by
  induction ls with
  | nil => exact ⟨hrest, rfl⟩
  | cons l ls ih =>
    obtain ⟨hl, hls⟩ := List.forall_mem_cons.1 h
    obtain ⟨hnext, hafter⟩ := ih hls
    rw [List.cons_append, afterKey?_cons (by rw [hnext, Bool.and_false])]
    exact ⟨hl, hafter⟩

/-- No keyword follows another one where commas stand between the names. -/
theorem afterKey?_led (keyword : String) (es : List (Lexeme × List Lexeme)) {ls : List Lexeme}
    (hes : ∀ e ∈ es, ∀ l ∈ e.2, l.token.isWord "KEY" = false) (hls : nextIs "KEY" ls = false) :
    afterKey? keyword (entries (es.map fun e => e.1 :: e.2) ++ ls) = afterKey? keyword ls := by
  induction es with
  | nil => rfl
  | cons e es ih =>
    obtain ⟨he, hes⟩ := List.forall_mem_cons.1 hes
    have hentry : ∀ rest, nextIs "KEY" rest = false →
        afterKey? keyword (e.1 :: e.2 ++ rest) = afterKey? keyword rest := by
      intro rest hrest
      obtain ⟨hnext, hafter⟩ := afterKey?_append keyword he hrest
      rw [List.cons_append, afterKey?_cons (by rw [hnext, Bool.and_false]), hafter]
    cases es with
    | nil => simpa [entries] using hentry ls hls
    | cons f es =>
      rw [List.map_cons, List.map_cons, entries_cons_cons, List.append_assoc, hentry _ rfl]
      exact (afterKey?_cons rfl).trans (ih hes)

theorem afterKey?_group (keyword : String) (g : Text) (es : List (Lexeme × List Lexeme))
    (hes : ∀ e ∈ es, ∀ l ∈ e.2, l.token.isWord "KEY" = false) (g' : Text) :
    afterKey? keyword (group g (es.map fun e => e.1 :: e.2) g') = none :=
  (afterKey?_cons rfl).trans (afterKey?_led keyword es hes rfl)

/-- The keywords of an index are no types. -/
theorem typeName?_keyword {m : String} {b : Lexeme} (hm : m ∈ ["KEY", "INDEX"])
    (hb : IsKeyword m b) (ls : List Lexeme) :
    (typeName? (b :: ls)).filter (ColumnType.isRecognized ·.1) = none := by
  have hother : ∀ m ∈ ["KEY", "INDEX"], Text.same m.toList "double".toList = false ∧
      Text.same m.toList "character".toList = false ∧ ColumnType.isRecognized m = false := by
    decide
  obtain ⟨hdouble, hcharacter, hrecognized⟩ := hother m hm
  have hw := fun w : String => @Token.isWord_of_isWord b.token m w hb.isWord
  rw [hb.bare.token] at hw
  simp only [Token.isWord] at hw
  rw [typeName?_cons, hb.bare.token]
  simp only [Token.word?, Option.map_some, hw, hdouble, hcharacter, Bool.false_and, Bool.or_false,
    Bool.false_eq_true, if_false, Option.filter_some, ColumnType.isRecognized_of_same hb.same,
    hrecognized]

end Fragment

/-- The line of an index: its keywords, its name and its columns. -/
structure IndexLine where
  words : List Lexeme
  name : Lexeme
  /-- The white space in front of the list. -/
  opening : Text := [' ']
  columns : List Lexeme
  /-- The white space at the end of the list. -/
  closing : Text := []

namespace IndexLine

/-- A keyword, in upper or lower case, where a line begins. -/
structure IsFirst (k : String) (l : Lexeme) : Prop where
  gap : ∀ c ∈ l.gap, isSeparator c = true
  bare : IsBare l.text l
  same : Text.same l.text k = true

/-- `KEY`, `INDEX`, or the kind of the index with either of them behind it or without. -/
inductive SpellsWords : List Lexeme → Prop
  | one {k : String} {a : Lexeme} (hk : k ∈ ["KEY", "INDEX", "UNIQUE", "FULLTEXT", "SPATIAL"])
      (ha : IsFirst k a) : SpellsWords [a]
  | two {k m : String} {a b : Lexeme} (hk : k ∈ ["UNIQUE", "FULLTEXT", "SPATIAL"])
      (hm : m ∈ ["KEY", "INDEX"]) (ha : IsFirst k a) (hb : IsKeyword m b) : SpellsWords [a, b]

variable (l : IndexLine)

def list : List Lexeme := group l.opening (l.columns.map fun c => [c]) l.closing

def lexemes : List Lexeme := l.words ++ l.name :: l.list

/-- All names are bare words, be they keywords or names of types. -/
structure WellFormed : Prop where
  words : SpellsWords l.words
  name_gap : IsGap l.name.gap
  name : IsBare l.name.text l.name
  opening : ∀ c ∈ l.opening, isSeparator c = true
  ne_nil : l.columns ≠ []
  column_gap : ∀ c ∈ l.columns, ∀ d ∈ c.gap, isSeparator d = true
  column : ∀ c ∈ l.columns, IsBare c.text c
  closing : ∀ c ∈ l.closing, isSeparator c = true

/-- Whether the name of a unique index follows its keyword at once and is that of a type. -/
def namesType : Bool :=
  match l.words with
  | [a] => a.token.isWord "UNIQUE" && ColumnType.isRecognized l.name.text
  | _ => false

/-- Whether `UNIQUE KEY` leads the line, be it that the index itself is named `KEY`. -/
def isUniqueKey : Bool := nextIs "UNIQUE" l.lexemes && nextIs "KEY" (l.lexemes.drop 1)

/-- What the line says when it is no column. -/
def fragment : Fragment :=
  if l.isUniqueKey then .uniqueKey (l.columns.map (·.text)) else .ignored

variable {l}

theorem IsFirst.isWord {k : String} {a : Lexeme} (h : IsFirst k a) : a.token.isWord k = true := by
  rw [h.bare.token]
  exact h.same

theorem IsFirst.name? {k : String} {a : Lexeme} (h : IsFirst k a) :
    a.token.name? = some a.text := by
  rw [h.bare.token]
  rfl

theorem IsFirst.head?_ne_tick {k : String} {a : Lexeme} (h : IsFirst k a) :
    (a.text.head? != some '\x60') = true := by
  obtain ⟨c, cs, ht, hc, -⟩ := h.bare.word.exists_cons
  have hne : c ≠ '\x60' := by
    rintro rfl
    exact absurd hc (by decide)
  simp [ht, hne]

private theorem apart_list (h : l.WellFormed) : Apart l.list := by
  refine apart_group h.opening h.closing fun e he => ?_
  obtain ⟨c, hc, rfl⟩ := List.mem_map.1 he
  exact (h.column c hc).clear (h.column_gap c hc)

private theorem isInner_columns (h : l.WellFormed) :
    ∀ c ∈ l.columns, Token.isInner c.token = true := by
  intro c hc
  rw [(h.column c hc).token]
  rfl

private theorem clear_lexemes (h : l.WellFormed) : Clear l.lexemes [] := by
  have hafter : Apart (l.name :: l.list) := (h.name.apart h.name_gap).append (apart_list h)
  have hwords := h.words
  rw [lexemes]
  generalize l.words = words at hwords
  cases hwords with
  | one _ ha => exact clear_append_apart (ha.bare.clear ha.gap) hafter
  | @two _ _ a b _ _ ha hb =>
    exact @clear_append_apart [a] (b :: l.name :: l.list) (ha.bare.clear ha.gap)
      (hb.apart.append hafter)

private theorem afterKey?_name (l : IndexLine) (keyword : String) :
    Fragment.afterKey? keyword (l.name :: l.list) = none := by
  have hnone := Fragment.afterKey?_group keyword l.opening (l.columns.map fun c => (c, []))
    (List.forall_mem_map.2 fun c _ => List.forall_mem_nil _) l.closing
  rw [List.map_map] at hnone
  exact (Fragment.afterKey?_cons (Bool.and_false _)).trans hnone

private theorem columnNames_list (h : l.WellFormed) (ls : List Lexeme)
    (hls : ∀ k ∈ ls, k.token ≠ .openParen) :
    Fragment.columnNames (ls ++ l.list) = l.columns.map (·.text) := by
  have hnames : ∀ cs : List Lexeme, (∀ c ∈ cs, IsBare c.text c) →
      cs.flatMap (·.token.name?.toList) = cs.map (·.text) := by
    intro cs hcs
    induction cs with
    | nil => rfl
    | cons c cs ih =>
      rw [List.flatMap_cons, ih fun d hd => hcs d (List.mem_cons_of_mem c hd),
        (hcs c List.mem_cons_self).token]
      rfl
  rw [list, Fragment.columnNames_append hls (isInner_columns h), hnames l.columns h.column]

/-- A line begins with a keyword of an index, and what follows it has no key of its own. -/
theorem exists_first (h : l.WellFormed) : ∃ (k : String) (a : Lexeme) (rest : List Lexeme),
    k ∈ ["KEY", "INDEX", "UNIQUE", "FULLTEXT", "SPATIAL"] ∧ IsFirst k a ∧ l.lexemes = a :: rest ∧
    (∀ w ∈ ["PRIMARY", "UNIQUE"], Fragment.afterKey? w rest = none) ∧
    Fragment.columnNames (rest.drop 1) = l.columns.map (·.text) := by
  have hname := afterKey?_name l
  have hwords := h.words
  rw [lexemes]
  generalize l.words = words at hwords
  cases hwords with
  | one hk ha =>
    exact ⟨_, _, _, hk, ha, rfl, fun w _ => hname w, columnNames_list h [] (by simp)⟩
  | @two k m a b hk hm ha hb =>
    have hother : ∀ m ∈ ["KEY", "INDEX"], ∀ w ∈ ["PRIMARY", "UNIQUE"],
        Text.same m.toList w.toList = false := by decide
    have hmem : k ∈ ["KEY", "INDEX", "UNIQUE", "FULLTEXT", "SPATIAL"] :=
      List.mem_cons_of_mem _ (List.mem_cons_of_mem _ hk)
    refine ⟨k, a, _, hmem, ha, rfl, fun w hw => ?_, ?_⟩
    · have hb : b.token.isWord w = false :=
        (Token.isWord_of_isWord hb.isWord).trans (hother m hm w hw)
      exact (Fragment.afterKey?_cons (by rw [hb, Bool.false_and])).trans (hname w)
    · refine columnNames_list h [l.name] fun k hk => ?_
      rw [List.mem_singleton.1 hk, h.name.token]
      simp

/-- The line of an index declares no primary key, and a unique one if `UNIQUE KEY` leads it. -/
theorem ofConstraint_lexemes (h : l.WellFormed) : Fragment.ofConstraint l.lexemes = l.fragment := by
  obtain ⟨k, a, rest, hk, ha, hlexemes, hnone, hnames⟩ := exists_first h
  have hother : ∀ k ∈ ["KEY", "INDEX", "UNIQUE", "FULLTEXT", "SPATIAL"],
      Text.same k.toList "PRIMARY".toList = false := by decide
  have hprimary : a.token.isWord "PRIMARY" = false :=
    (Token.isWord_of_isWord ha.isWord).trans (hother k hk)
  have hfirst : Fragment.afterKey? "PRIMARY" (a :: rest) = none :=
    (Fragment.afterKey?_cons (by rw [hprimary, Bool.false_and])).trans (hnone _ (by simp))
  have hunique : l.isUniqueKey = (a.token.isWord "UNIQUE" && nextIs "KEY" rest) := by
    rw [isUniqueKey, hlexemes]
    rfl
  rw [Fragment.ofConstraint, fragment, hunique, hlexemes, hfirst]
  cases hu : a.token.isWord "UNIQUE" && nextIs "KEY" rest with
  | true => simp only [Fragment.afterKey?, hu, if_true, hnames]
  | false => simp [Fragment.afterKey?_cons hu, hnone]

/-- An index is known by its name if its keyword is not `UNIQUE` and its name follows at once. -/
theorem isNamedIndex_lexemes (h : l.WellFormed) : Fragment.isNamedIndex l.lexemes =
    match l.words with
    | [a] => !a.token.isWord "UNIQUE"
    | _ => false := by
  have hwords := h.words
  rw [lexemes]
  generalize l.words = words at hwords
  cases hwords with
  | @one k a hk ha =>
    have hone : ∀ k ∈ ["KEY", "INDEX", "UNIQUE", "FULLTEXT", "SPATIAL"],
        Text.same k.toList "CONSTRAINT".toList = false ∧
        Text.oneOf ["KEY", "INDEX", "FULLTEXT", "SPATIAL"] k.toList =
          !Text.same k.toList "UNIQUE".toList := by decide
    obtain ⟨hconstraint, hindex⟩ := hone k hk
    obtain ⟨c, cs, hcolumns⟩ := List.exists_cons_of_ne_nil h.ne_nil
    have hc := h.column c (by simp [hcolumns])
    have hlist : ∃ ls, l.list = ⟨l.opening, ['('], .openParen⟩ :: c :: ls := by
      rw [list, hcolumns, group, List.map_cons]
      cases cs with
      | nil => exact ⟨_, rfl⟩
      | cons d cs => exact ⟨_, by rw [List.map_cons, entries_cons_cons]; rfl⟩
    obtain ⟨ls, hlist⟩ := hlist
    have hself : a.token.isOneOf ["KEY", "INDEX", "FULLTEXT", "SPATIAL"] =
        !a.token.isWord "UNIQUE" := by
      rw [Token.isOneOf_of_isWord ha.isWord, Token.isWord_of_isWord ha.isWord, hindex]
    rw [hlist, List.singleton_append, Fragment.isNamedIndex, ha.head?_ne_tick,
      Token.isWord_of_isWord ha.isWord, hconstraint, hself]
    simp [h.name.token, hc.token, Token.name?, Token.word?]
  | @two k m a b hk hm ha hb =>
    have hconstraint : ∀ k ∈ ["UNIQUE", "FULLTEXT", "SPATIAL"],
        Text.same k.toList "CONSTRAINT".toList = false := by decide
    have ha : a.token.isWord "CONSTRAINT" = false :=
      (Token.isWord_of_isWord ha.isWord).trans (hconstraint k hk)
    simp [Fragment.isNamedIndex, ha, h.name.token]

/-- The type that is looked for behind the first keyword. -/
theorem typeName?_lexemes (h : l.WellFormed) :
    (Fragment.typeName? (l.lexemes.drop 1)).filter (ColumnType.isRecognized ·.1) =
      match l.words with
      | [_] => if ColumnType.isRecognized l.name.text then some (l.name.text, l.list) else none
      | _ => none := by
  have hwords := h.words
  rw [lexemes]
  generalize l.words = words at hwords
  cases hwords with
  | one hk ha =>
    have hnext : ∀ w, nextIs w l.list = false := fun _ => rfl
    rw [List.singleton_append, List.drop_one, List.tail_cons, Fragment.typeName?_cons,
      h.name.token]
    simp only [Token.word?, Option.map_some, hnext, Bool.and_false, Bool.or_false,
      Bool.false_eq_true, if_false, Option.filter_some]
  | two hk hm ha hb => exact Fragment.typeName?_keyword hm hb _

/-- Taken for a column, the line has a type with the list behind it and no clauses. -/
theorem read_list (h : l.WellFormed) (name typeName : Text) :
    Column.read name typeName l.list =
      Column.draft name typeName (Text.trim (groupText l.list)) := by
  have henclosed := enclosed_singletons (isInner_columns h)
  have hgroup : leadingGroup l.list = l.list.length := by
    have := @leadingGroup_group l.opening l.closing _ henclosed []
    rwa [List.append_nil] at this
  have hzone : Column.zoneAfter? typeName [] = none := by
    unfold Column.zoneAfter?
    split <;> rfl
  have hfinish : ∀ length, (Column.draft name typeName length).finish =
      Column.draft name typeName length := by
    intro length
    obtain ⟨values, problems, hdraft⟩ := Column.draft_eq name typeName length
    rw [hdraft]
    rfl
  have hne : l.list.length ≠ 0 := by simp [list, group]
  rw [Column.read]
  simp only [hgroup, if_neg hne, List.drop_length, hzone, Option.isSome_none, Bool.false_eq_true,
    if_false, Clause.readAll, List.foldl_nil, Option.getD_none, List.append_nil, hfinish]

/-- The line is read as an index, or as a column if it names a type. -/
theorem read_lexemes (h : l.WellFormed) :
    (l.namesType = false ∧ Fragment.read l.lexemes = { result := .ok l.fragment }) ∨
    (l.namesType = true ∧ ∃ (c : Column) (problems : List Problem),
      Fragment.read l.lexemes = { result := .ok (.column c false), problems } ∧
      c.typeName = l.name.text) := by
  obtain ⟨k, a, rest, hk, ha, hlexemes, -⟩ := exists_first h
  have hself := ha.name?
  have hnamed := isNamedIndex_lexemes h
  have htype := typeName?_lexemes h
  have hconstraint := ofConstraint_lexemes h
  have hkeyword : a.token.isOneOf Fragment.constraintKeywords = true := by
    have hall : ∀ k ∈ ["KEY", "INDEX", "UNIQUE", "FULLTEXT", "SPATIAL"],
        Text.oneOf Fragment.constraintKeywords k.toList = true := by decide
    exact (Token.isOneOf_of_isWord ha.isWord _).trans (hall k hk)
  rw [hlexemes] at hnamed htype hconstraint ⊢
  rw [List.drop_one, List.tail_cons] at htype
  have hwords := h.words
  rw [namesType]
  generalize l.words = words at hwords hnamed htype
  cases hwords with
  | @one _ first =>
    simp only at hnamed htype ⊢
    cases hunique : first.token.isWord "UNIQUE" with
    | false =>
      refine .inl ⟨rfl, ?_⟩
      simp only [Fragment.read, hself, hnamed, hunique, Bool.not_false, if_true, hconstraint]
    | true =>
      cases hrecognized : ColumnType.isRecognized l.name.text with
      | false =>
        refine .inl ⟨rfl, ?_⟩
        simp only [Fragment.read, hself, hnamed, hunique, hrecognized, Bool.not_true,
          Bool.false_eq_true, if_false, Fragment.readNamed, htype, hkeyword, if_true, hconstraint]
      | true =>
        obtain ⟨values, problems, hdraft⟩ :=
          Column.draft_eq a.text l.name.text (Text.trim (groupText l.list))
        have hcolumn := (read_list h a.text l.name.text).trans hdraft
        have hinline : (Column.read a.text l.name.text l.list).inlinePrimary = false := by
          rw [hcolumn]
        refine .inr ⟨rfl, (Column.read a.text l.name.text l.list).column,
          (Column.read a.text l.name.text l.list).problems, ?_, by rw [hcolumn]⟩
        simp only [Fragment.read, hself, hnamed, hunique, hrecognized, Bool.not_true,
          Bool.false_eq_true, if_false, Fragment.readNamed, htype, if_true, hinline]
  | two =>
    refine .inl ⟨rfl, ?_⟩
    simp only [Fragment.read, hself, hnamed, Bool.false_eq_true, if_false, Fragment.readNamed, htype,
      hkeyword, if_true, hconstraint]

/-- The line of an index is no column and gives rise to no problem, except that a unique index whose
name follows its keyword at once is taken for a column if it has the name of a type. -/
theorem read_index_iff (h : l.WellFormed) : ∃ (f : Fragment) (problems : List Problem),
    Fragment.read (tokenize (source l.lexemes)) = { result := .ok f, problems } ∧
    (((∀ c p, f ≠ .column c p) ∧ problems = []) ↔ l.namesType = false) ∧
    (l.namesType = false → f = l.fragment) ∧
    (l.namesType = true → ∃ c, f = .column c false ∧ c.typeName = l.name.text) := by
  rw [tokenize_source (clear_lexemes h)]
  obtain ⟨hnone, hread⟩ | ⟨htype, c, problems, hread, hname⟩ := read_lexemes h
  · refine ⟨_, _, hread, iff_of_true ⟨fun c p hf => ?_, rfl⟩ hnone, fun _ => rfl,
      fun htype => absurd hnone (by simp [htype])⟩
    unfold fragment at hf
    split at hf <;> cases hf
  · exact ⟨_, _, hread, iff_of_false (fun hf => hf.1 c false rfl) (by simp [htype]),
      fun hnone => absurd htype (by simp [hnone]), fun _ => ⟨c, rfl, hname⟩⟩

/-- An index may have the name of a type if a second keyword is in front. -/
theorem read_index_iff_unique_key : ∃ f : Fragment,
    Fragment.read (tokenize "UNIQUE KEY uuid (uuid, date)") = { result := .ok f } ∧
    (∀ c p, f ≠ .column c p) ∧ f = .uniqueKey ["uuid".toList, "date".toList] := by
  let line : IndexLine :=
    { words := [⟨[], "UNIQUE", .word "UNIQUE"⟩, keyword "KEY"]
      name := keyword "uuid"
      columns := [⟨[], "uuid", .word "uuid"⟩, keyword "date"] }
  have hline : line.WellFormed :=
    { words := .two (k := "UNIQUE") (m := "KEY") (by simp) (by simp)
        ⟨by simp, ⟨by decide, rfl, rfl⟩, by decide⟩
        ⟨isGap_space, ⟨by decide, rfl, rfl⟩, by decide⟩
      name_gap := isGap_space
      name := ⟨by decide, rfl, rfl⟩
      opening := isGap_space.separators
      ne_nil := by simp [line]
      column_gap := by
        simp only [line, List.forall_mem_cons]
        exact ⟨List.forall_mem_nil _, isGap_space.separators, List.forall_mem_nil _⟩
      column := by
        simp only [line, List.forall_mem_cons]
        exact ⟨⟨by decide, rfl, rfl⟩, ⟨by decide, rfl, rfl⟩, List.forall_mem_nil _⟩
      closing := List.forall_mem_nil _ }
  obtain ⟨f, problems, hread, hindex, hfragment, -⟩ := read_index_iff hline
  have hnone : line.namesType = false := rfl
  obtain ⟨hcolumn, rfl⟩ := hindex.2 hnone
  exact ⟨f, hread, hcolumn, (hfragment hnone).trans (by decide)⟩

/-- A unique index that is named after a type is taken for a column. -/
theorem read_index_uuid :
    (Fragment.read (tokenize "UNIQUE uuid (uuid)")).result =
      .ok (.column { name := "UNIQUE", typeName := "uuid", length := "uuid" } false) := by
  decide +kernel

end IndexLine

end TableDialects
