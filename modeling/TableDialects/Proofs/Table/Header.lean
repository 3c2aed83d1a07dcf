import TableDialects.Proofs.Script.Header

/-!
# Table headers

A header is the word `CREATE`, modifiers, `TABLE` with or without a condition, the name with its
qualifiers, and an opening parenthesis. The reader finds the first one in a statement, wherever it
stands: a statement that creates something else is a table if one is among its tokens.
-/
namespace TableDialects.Table

open Lexeme

/-- The words that may stand in front of `TABLE`. -/
abbrev modifiers : List String := ["TEMPORARY", "TEMP", "UNLOGGED", "GLOBAL", "LOCAL"]

/-- A qualified name after its first part. -/
inductive SpellsParts : List Text → List Token → Prop
  | nil : SpellsParts [] []
  | cons {t : Token} {ts : List Token} {name : Text} {names : List Text} (ht : t.name? = some name)
      (h : SpellsParts names ts) : SpellsParts (name :: names) (.punct '.' :: t :: ts)

inductive SpellsName : Text → List Token → Prop
  | mk {t : Token} {ts : List Token} {first : Text} {names : List Text} (ht : t.name? = some first)
      (h : SpellsParts names ts) : SpellsName (Text.join "." (first :: names)) (t :: ts)

/-- What is between `CREATE` and the parenthesis. -/
inductive SpellsHeader (name : Text) : List Token → Prop
  | plain {t : Token} {ts : List Token} (ht : t.isWord "TABLE" = true) (h : SpellsName name ts) :
    SpellsHeader name (t :: ts)
  | conditional {t i n e : Token} {ts : List Token} (ht : t.isWord "TABLE" = true)
    (hi : i.isWord "IF" = true) (hn : n.isWord "NOT" = true) (he : e.isWord "EXISTS" = true)
    (h : SpellsName name ts) : SpellsHeader name (t :: i :: n :: e :: ts)
  | modified {m : Token} {ts : List Token} (hm : m.isOneOf modifiers = true)
    (h : SpellsHeader name ts) : SpellsHeader name (m :: ts)

/-- The tokens of a header, the parenthesis included. -/
def IsHeader (ts : List Token) : Prop :=
  ∃ create name us, ts = create :: (us ++ [.openParen]) ∧ create.isWord "CREATE" = true ∧
    SpellsHeader name us

variable {ls rest us : List Lexeme} {l : Lexeme} {name : Text} {names : List Text}

private theorem exists_of_nameParts? (h : nameParts? ls = some (names, rest)) :
    ∃ us, ls = us ++ rest ∧ SpellsParts names (us.map (·.token)) := by
  fun_induction nameParts? ls generalizing names with
  | case1 g t part rest' ih =>
    obtain ⟨first, hfirst, h⟩ := Option.bind_eq_some_iff.1 h
    obtain ⟨⟨names, r⟩, hparts, h⟩ := Option.bind_eq_some_iff.1 h
    cases h
    obtain ⟨us, rfl, hus⟩ := ih hparts
    exact ⟨⟨g, t, .punct '.'⟩ :: part :: us, rfl, .cons hfirst hus⟩
  | case2 => cases h
  | case3 =>
    cases h
    exact ⟨[], rfl, .nil⟩

private theorem nameParts?_of_spells (h : SpellsParts names (us.map (·.token)))
    (hrest : rest.head?.map (·.token) = some .openParen) :
    nameParts? (us ++ rest) = some (names, rest) := by
  generalize hts : us.map (·.token) = ts at h
  induction h generalizing us with
  | nil =>
    rw [List.map_eq_nil_iff.1 hts, List.nil_append]
    exact Position.nameParts?_of_not_point (by rw [hrest]; simp)
  | cons ht h ih =>
    obtain ⟨⟨g, u, k⟩, vs, rfl, rfl, hvs⟩ := List.map_eq_cons_iff.1 hts
    obtain ⟨part, us, rfl, rfl, hus⟩ := List.map_eq_cons_iff.1 hvs
    simp [nameParts?, ht, ih hus]

private theorem nameBefore?_eq_some_iff : Position.nameBefore? ls = some (name, rest) ↔
    ∃ us, ls = us ++ rest ∧ SpellsName name (us.map (·.token)) ∧
      rest.head?.map (·.token) = some .openParen := by
  constructor
  · intro h
    rw [Position.nameBefore?] at h
    obtain ⟨first, hfirst, h⟩ := Option.bind_eq_some_iff.1 h
    obtain ⟨⟨names, r⟩, hparts, h⟩ := Option.bind_eq_some_iff.1 h
    split at h
    · next hopen =>
      cases h
      obtain ⟨l, hl, hname⟩ := Option.bind_eq_some_iff.1 hfirst
      obtain ⟨ls, rfl⟩ := List.head?_eq_some_iff.1 hl
      obtain ⟨us, hus, hspells⟩ := exists_of_nameParts? hparts
      exact ⟨l :: us, congrArg (l :: ·) hus, .mk hname hspells, hopen⟩
    · cases h
  · rintro ⟨us, rfl, hspells, hopen⟩
    generalize hts : us.map (·.token) = ts at hspells
    cases hspells with
    | mk ht h =>
      obtain ⟨l, us, rfl, rfl, hus⟩ := List.map_eq_cons_iff.1 hts
      subst hus
      simp only [Position.nameBefore?, List.cons_append, List.head?_cons, Option.bind_some, ht,
        List.drop_succ_cons, List.drop_zero, nameParts?_of_spells h hopen, hopen, if_true]

private theorem headerAfterCreate?_modifier (hl : l.token.isOneOf modifiers = true) :
    headerAfterCreate? (l :: ls) = headerAfterCreate? ls := by
  have hdrop : (l :: ls).dropWhile (·.token.isOneOf modifiers) =
      ls.dropWhile (·.token.isOneOf modifiers) := List.dropWhile_cons_of_pos hl
  simp only [Position.headerAfterCreate?_eq, hdrop]

private theorem isOneOf_of_isTable (hl : l.token.isWord "TABLE" = true) :
    l.token.isOneOf modifiers = false := by
  have hall : ∀ w ∈ modifiers, Text.same "TABLE".toList w.toList = false := by decide
  rw [Token.isOneOf_eq_any, List.any_eq_false]
  intro w hw
  rw [Token.isWord_of_isWord hl, hall w hw]
  exact Bool.false_ne_true

private theorem headerAfterCreate?_table (hl : l.token.isWord "TABLE" = true) :
    headerAfterCreate? (l :: ls) = Position.nameBefore? (ls.drop (conditionLength ls)) :=
  headerAfterCreate?_cons (List.dropWhile_cons_of_neg (by simpa using isOneOf_of_isTable hl)) hl

private theorem headerAfterCreate?_other (hm : l.token.isOneOf modifiers = false)
    (hl : l.token.isWord "TABLE" = false) : headerAfterCreate? (l :: ls) = none := by
  have hdrop : (l :: ls).dropWhile (·.token.isOneOf modifiers) = l :: ls :=
    List.dropWhile_cons_of_neg (by simpa using hm)
  have hnext : nextIs "TABLE" (l :: ls) = false := hl
  simp only [Position.headerAfterCreate?_eq, hdrop, hnext, Bool.false_eq_true, if_false]

private theorem conditionLength_cases (ls : List Lexeme) : conditionLength ls = 0 ∨
    ∃ i n e t, ls = i :: n :: e :: t ∧ i.token.isWord "IF" = true ∧ n.token.isWord "NOT" = true ∧
      e.token.isWord "EXISTS" = true ∧ conditionLength ls = 3 := by
  unfold conditionLength
  split
  · next h =>
    rw [Bool.and_eq_true, Bool.and_eq_true] at h
    obtain ⟨⟨hi, hn⟩, he⟩ := h
    obtain ⟨i, t, rfl, hi⟩ := exists_of_nextIs hi
    obtain ⟨n, t, rfl, hn⟩ := exists_of_nextIs hn
    obtain ⟨e, t, rfl, he⟩ := exists_of_nextIs he
    exact .inr ⟨i, n, e, t, rfl, hi, hn, he, rfl⟩
  · exact .inl rfl

/-- No condition is found where the name should be. -/
theorem conditionLength_name (h : SpellsName name (us.map (·.token)))
    (hrest : rest.head?.map (·.token) = some .openParen) : conditionLength (us ++ rest) = 0 := by
  refine (conditionLength_cases (us ++ rest)).resolve_right ?_
  rintro ⟨i, n, e, t, ht, -, hn, -, -⟩
  generalize hts : us.map (·.token) = ts at h
  cases h with
  | mk _ h =>
    obtain ⟨l, us, rfl, rfl, hus⟩ := List.map_eq_cons_iff.1 hts
    have hnext : (us ++ rest).head?.map (·.token) = some n.token := by
      obtain ⟨-, htail⟩ := List.cons.inj (List.cons_append ▸ ht)
      rw [htail]
      rfl
    cases h with
    | nil =>
      rw [List.map_eq_nil_iff.1 hus, List.nil_append, hrest, Option.some.injEq] at hnext
      rw [← hnext] at hn
      cases hn
    | cons =>
      obtain ⟨p, us, rfl, hp, -⟩ := List.map_eq_cons_iff.1 hus
      rw [List.cons_append, List.head?_cons, Option.map_some, hp, Option.some.injEq] at hnext
      rw [← hnext] at hn
      cases hn

private theorem spells_of_headerAfterCreate? (h : headerAfterCreate? ls = some (name, rest)) :
    ∃ us, ls = us ++ rest ∧ SpellsHeader name (us.map (·.token)) ∧
      rest.head?.map (·.token) = some .openParen := by
  induction ls with
  | nil => cases h
  | cons l ls ih =>
    cases hm : l.token.isOneOf modifiers with
    | true =>
      rw [headerAfterCreate?_modifier hm] at h
      obtain ⟨us, rfl, hus, hrest⟩ := ih h
      exact ⟨l :: us, rfl, .modified hm hus, hrest⟩
    | false =>
      cases hl : l.token.isWord "TABLE" with
      | false =>
        rw [headerAfterCreate?_other hm hl] at h
        cases h
      | true =>
        rw [headerAfterCreate?_table hl] at h
        obtain ⟨us, hdrop, hus, hrest⟩ := nameBefore?_eq_some_iff.1 h
        obtain hzero | ⟨i, n, e, t, rfl, hi, hn, he, hthree⟩ := conditionLength_cases ls
        · rw [hzero, List.drop_zero] at hdrop
          exact ⟨l :: us, congrArg (l :: ·) hdrop, .plain hl hus, hrest⟩
        · rw [hthree] at hdrop
          obtain rfl : t = us ++ rest := hdrop
          exact ⟨l :: i :: n :: e :: us, rfl, .conditional hl hi hn he hus, hrest⟩

private theorem headerAfterCreate?_of_spells (h : SpellsHeader name (us.map (·.token)))
    (hrest : rest.head?.map (·.token) = some .openParen) :
    headerAfterCreate? (us ++ rest) = some (name, rest) := by
  generalize hts : us.map (·.token) = ts at h
  induction h generalizing us with
  | plain ht h =>
    obtain ⟨l, us, rfl, rfl, rfl⟩ := List.map_eq_cons_iff.1 hts
    rw [List.cons_append, headerAfterCreate?_table ht, conditionLength_name h hrest]
    exact nameBefore?_eq_some_iff.2 ⟨us, rfl, h, hrest⟩
  | conditional ht hi hn he h =>
    obtain ⟨l, us₁, rfl, rfl, hus₁⟩ := List.map_eq_cons_iff.1 hts
    obtain ⟨i, us₂, rfl, rfl, hus₂⟩ := List.map_eq_cons_iff.1 hus₁
    obtain ⟨n, us₃, rfl, rfl, hus₃⟩ := List.map_eq_cons_iff.1 hus₂
    obtain ⟨e, us, rfl, rfl, rfl⟩ := List.map_eq_cons_iff.1 hus₃
    have hthree : conditionLength (i :: n :: e :: (us ++ rest)) = 3 := by
      simp [conditionLength, nextIs, hi, hn, he]
    simp only [List.cons_append]
    rw [headerAfterCreate?_table ht, hthree]
    exact nameBefore?_eq_some_iff.2 ⟨us, rfl, h, hrest⟩
  | modified hm h ih =>
    obtain ⟨m, us, rfl, rfl, hus⟩ := List.map_eq_cons_iff.1 hts
    rw [List.cons_append, headerAfterCreate?_modifier hm]
    exact ih hus

/-- The words behind `CREATE` are read exactly if they are those of a header. -/
theorem headerAfterCreate?_eq_some_iff : headerAfterCreate? ls = some (name, rest) ↔
    ∃ us, ls = us ++ rest ∧ SpellsHeader name (us.map (·.token)) ∧
      rest.head?.map (·.token) = some .openParen := by
  refine ⟨spells_of_headerAfterCreate?, ?_⟩
  rintro ⟨us, rfl, hspells, hrest⟩
  exact headerAfterCreate?_of_spells hspells hrest

theorem suffix_of_headerAfterCreate? (h : headerAfterCreate? ls = some (name, rest)) :
    rest <:+ ls := by
  obtain ⟨us, rfl, -⟩ := spells_of_headerAfterCreate? h
  exact List.suffix_append us rest

theorem suffix_of_header? (h : header? ls = some (name, rest)) : rest <:+ ls := by
  induction ls with
  | nil => cases h
  | cons l ls ih =>
    refine List.IsSuffix.trans ?_ (List.suffix_cons l ls)
    rw [header?] at h
    split at h
    · rcases Option.or_eq_some_iff.1 h with h | ⟨-, h⟩
      · exact suffix_of_headerAfterCreate? h
      · exact ih h
    · exact ih h

private theorem exists_isHeader_prefix_iff : (∃ ts, ts <+: (l :: ls).map (·.token) ∧ IsHeader ts) ↔
    l.token.isWord "CREATE" = true ∧ headerAfterCreate? ls ≠ none := by
  constructor
  · rintro ⟨-, hprefix, create, name, us, rfl, hcreate, hspells⟩
    obtain ⟨hl, v, hv⟩ := List.cons_prefix_cons.1 hprefix
    obtain ⟨a, b, rfl, ha, -⟩ := List.map_eq_append_iff.1 hv.symm
    obtain ⟨c, d, rfl, rfl, hd⟩ := List.map_eq_append_iff.1 ha
    obtain ⟨p, e, rfl, hp, -⟩ := List.map_eq_cons_iff.1 hd
    have hsome : headerAfterCreate? (c ++ p :: e ++ b) = some (name, p :: (e ++ b)) :=
      headerAfterCreate?_eq_some_iff.2 ⟨c, by simp, hspells, congrArg some hp⟩
    subst hl
    exact ⟨hcreate, by rw [hsome]; exact Option.some_ne_none _⟩
  · rintro ⟨hl, hsome⟩
    obtain ⟨⟨name, rest⟩, hsome⟩ := Option.ne_none_iff_exists'.1 hsome
    obtain ⟨us, rfl, hspells, hrest⟩ := headerAfterCreate?_eq_some_iff.1 hsome
    obtain ⟨p, hhead, hp⟩ := Option.map_eq_some_iff.1 hrest
    obtain ⟨rest, rfl⟩ := List.head?_eq_some_iff.1 hhead
    refine ⟨l.token :: (us.map (·.token) ++ [.openParen]), ?_, l.token, name, us.map (·.token), rfl,
      hl, hspells⟩
    exact ⟨rest.map (·.token), by simp [hp]⟩

/-- No header is found exactly if there is none among the tokens. -/
theorem header?_eq_none_iff : header? ls = none ↔
    ∀ ts, ts <:+: ls.map (·.token) → ¬ IsHeader ts := by
  induction ls with
  | nil =>
    refine iff_of_true rfl fun ts hts ⟨create, name, us, hcons, _⟩ => ?_
    rw [List.infix_nil.1 hts] at hcons
    cases hcons
  | cons l ls ih =>
    have hhere := @exists_isHeader_prefix_iff ls l
    have hnone : header? (l :: ls) = none ↔
        ¬ (l.token.isWord "CREATE" = true ∧ headerAfterCreate? ls ≠ none) ∧ header? ls = none := by
      rw [header?]
      split
      · next hl => simp [hl]
      · next hl => simp [hl]
    rw [hnone, ← hhere, ih]
    simp only [List.map_cons, List.infix_cons_iff, or_imp, forall_and, not_exists, not_and]

private theorem read_result_eq_noTable_iff {s : Text} :
    (read s).result = .error .noTable ↔ header? (tokenize s) = none := by
  rw [read]
  cases h : header? (tokenize s) with
  | none => simp
  | some p =>
    simp only [reduceCtorEq, iff_false]
    unfold assemble
    extract_lets columns
    split <;> simp

variable {create kind : Lexeme} {body : List Lexeme}

/-- A statement that creates no table is none, unless there is a header after its first word. -/
theorem read_created_iff {s : Text} (hs : tokenize s = create :: kind :: body)
    (hcreate : create.token.isWord "CREATE" = true)
    (hkind : kind.token.isOneOf ("TABLE" :: modifiers) = false) :
    (read s).result = .error .noTable ↔
      ∀ ts, ts <:+: (kind :: body).map (·.token) → ¬ IsHeader ts := by
  have hother : kind.token.isWord "TABLE" = false ∧ kind.token.isOneOf modifiers = false := by
    rwa [Token.isOneOf_eq_any, List.any_cons, Bool.or_eq_false_iff, ← Token.isOneOf_eq_any] at hkind
  have hnone := @headerAfterCreate?_other body kind hother.2 hother.1
  rw [read_result_eq_noTable_iff, hs, header?, if_pos hcreate, hnone, Option.none_or]
  exact header?_eq_none_iff

/-- A definition in quotes is none, nor is a table that is created from a query. -/
theorem read_created_function :
    let s : Text := "CREATE FUNCTION f() BEGIN CREATE TABLE t AS SELECT 'CREATE TABLE u (a INT)'; END"
    (read s).result = .error .noTable ∧
      ∀ ts, ts <:+: ((tokenize s).drop 1).map (·.token) → ¬ IsHeader ts := by
  intro s
  have hnone : (read s).result = .error .noTable := by decide +kernel
  have hs : tokenize s = ⟨[], "CREATE", .word "CREATE"⟩ :: ⟨[' '], "FUNCTION", .word "FUNCTION"⟩ ::
      (tokenize s).drop 2 := by
    decide +kernel
  refine ⟨hnone, ?_⟩
  have htokens := (read_created_iff hs (by decide) (by decide)).1 hnone
  rw [hs]
  exact htokens

/-- A table that a procedure creates is taken for the one that the statement defines. -/
theorem read_created_procedure :
    let s : Text := "CREATE PROCEDURE p() BEGIN CREATE TEMPORARY TABLE t (a INT); END"
    ((tokenize s).take 2).map (·.token) = [.word "CREATE", .word "PROCEDURE"] ∧
      (read s).result = .ok { name := "t", columns := [{ name := "a", typeName := "INT" }] } := by
  decide +kernel

end TableDialects.Table
