import TableDialects.Proofs.Table.IndexLine

/-!
# Key lines

A primary key, be it a constraint with a name or not, and a unique key are told from columns by
their keywords, whatever the names are. They have the columns that their list names, without the
lengths of prefixes and the directions.
-/
namespace TableDialects

open Lexeme

namespace Lexeme

/-- The lexeme stands for a name: bare, between backticks, or between double quotes. -/
inductive Names (name : Text) : Lexeme → Prop
  | bare {l : Lexeme} (h : IsBare name l) : Names name l
  | ticked {g : Text} : Names name ⟨g, Text.enclosed '\x60' name, .word name⟩
  | quoted {g : Text} (h : '\\' ∉ name) :
      Names name ⟨g, Text.enclosed '\"' name, .quoted '\"' name⟩

section
variable {name : Text} {l : Lexeme}

private theorem Names.name? (h : l.Names name) : l.token.name? = some name := by
  cases h with
  | bare h => rw [h.token]; rfl
  | ticked => rfl
  | quoted => rfl

private theorem Names.isInner (h : l.Names name) : Token.isInner l.token = true := by
  cases h with
  | bare h => rw [h.token]; rfl
  | ticked => rfl
  | quoted => rfl

private theorem Names.clear (h : l.Names name) (hg : ∀ c ∈ l.gap, isSeparator c = true) :
    Clear [l] [] := by
  cases h with
  | bare h => exact h.clear hg
  | ticked =>
    exact ⟨⟨hg, startsToken_cons (by decide) (by decide) (by decide) _,
      .literal (q := '\x60') rfl (Token.quotes_doubled (.inl rfl)) (by simp)⟩, trivial⟩
  | quoted h =>
    exact ⟨⟨hg, startsToken_cons (by decide) (by decide) (by decide) _,
      .literal (q := '\"') rfl (Token.quotes_doubled (.inr h)) (by simp)⟩, trivial⟩

private theorem Names.apart (h : l.Names name) (hg : IsGap l.gap) : Apart [l] :=
  ⟨h.clear hg.separators, by rw [source_cons]; exact hg.breaks _⟩

end

end Lexeme

/-- A column of a key: its name and what follows it there. -/
structure KeyPart where
  name : Text
  first : Lexeme
  rest : List Lexeme := []

namespace KeyPart

/-- Nothing, or a number in parentheses. -/
inductive SpellsLength : List Lexeme → Prop
  | absent : SpellsLength []
  | number {g g' : Text} {l : Lexeme} (hg : ∀ c ∈ g, isSeparator c = true)
      (hg' : ∀ c ∈ g', isSeparator c = true) (hl : ∀ c ∈ l.gap, isSeparator c = true)
      (h : IsNumber l.text) (ht : l.token = .number l.text) : SpellsLength (group g [[l]] g')

/-- Nothing, or a direction. -/
inductive SpellsDirection : List Lexeme → Prop
  | absent : SpellsDirection []
  | word {k : String} {l : Lexeme} (hk : k ∈ ["ASC", "DESC"]) (h : IsKeyword k l) :
      SpellsDirection [l]

variable (p : KeyPart)

def lexemes : List Lexeme := p.first :: p.rest

/-- A name, perhaps with the length of a prefix, perhaps with a direction. -/
structure WellFormed : Prop where
  gap : ∀ c ∈ p.first.gap, isSeparator c = true
  names : p.first.Names p.name
  rest : ∃ length direction, p.rest = length ++ direction ∧ SpellsLength length ∧
    SpellsDirection direction

variable {p} {ls rest : List Lexeme}

private theorem SpellsLength.apart (h : SpellsLength ls) : Apart ls := by
  cases h with
  | absent => exact apart_nil
  | @number g g' l hg hg' hl h ht =>
    refine apart_group hg hg' fun e he => ?_
    rw [List.mem_singleton.1 he]
    refine ⟨⟨hl, h.startsToken _, ?_⟩, trivial⟩
    rw [ht]
    exact h.written

private theorem SpellsLength.enclosed (h : SpellsLength ls) :
    Token.Enclosed (ls.map (·.token)) := by
  cases h with
  | absent => rfl
  | number _ _ _ _ ht =>
    refine enclosed_group fun e he => ?_
    rw [List.mem_singleton.1 he]
    exact enclosed_singleton (by rw [ht]; rfl)

private theorem SpellsDirection.apart (h : SpellsDirection ls) : Apart ls := by
  cases h with
  | absent => exact apart_nil
  | word _ h => exact h.apart

private theorem SpellsDirection.enclosed (h : SpellsDirection ls) :
    Token.Enclosed (ls.map (·.token)) := by
  cases h with
  | absent => rfl
  | word _ h => exact enclosed_singleton (by rw [h.bare.token]; rfl)

private theorem WellFormed.clear (h : p.WellFormed) : Clear p.lexemes [] := by
  obtain ⟨length, direction, hrest, hlength, hdirection⟩ := h.rest
  have happend := clear_append_apart (h.names.clear h.gap) (hlength.apart.append hdirection.apart)
  rwa [← hrest] at happend

private theorem WellFormed.enclosed (h : p.WellFormed) : Token.Enclosed (p.rest.map (·.token)) := by
  obtain ⟨length, direction, hrest, hlength, hdirection⟩ := h.rest
  rw [hrest, List.map_append]
  exact hlength.enclosed.append hdirection.enclosed

private theorem SpellsLength.keyless (h : SpellsLength ls) :
    ∀ l ∈ ls, l.token.isWord "KEY" = false := by
  cases h with
  | absent => exact List.forall_mem_nil _
  | number _ _ _ _ ht =>
    simp only [group, entries, List.intercalate_singleton, List.singleton_append,
      List.forall_mem_cons, ht]
    exact ⟨rfl, rfl, rfl, List.forall_mem_nil _⟩

private theorem SpellsDirection.keyless (h : SpellsDirection ls) :
    ∀ l ∈ ls, l.token.isWord "KEY" = false := by
  cases h with
  | absent => exact List.forall_mem_nil _
  | word hk h =>
    have hother : ∀ k ∈ ["ASC", "DESC"], Text.same k.toList "KEY".toList = false := by decide
    rw [List.forall_mem_singleton]
    exact (Token.isWord_of_isWord h.isWord).trans (hother _ hk)

/-- What follows the name has no keyword of a key. -/
theorem WellFormed.keyless (h : p.WellFormed) : ∀ l ∈ p.rest, l.token.isWord "KEY" = false := by
  obtain ⟨length, direction, hrest, hlength, hdirection⟩ := h.rest
  rw [hrest]
  exact List.forall_mem_append.2 ⟨hlength.keyless, hdirection.keyless⟩

end KeyPart

/-- The line of a key: its keywords, its name where it has one, and its columns. -/
structure KeyLine where
  isPrimary : Bool
  words : List Lexeme
  /-- The white space in front of the list. -/
  opening : Text := [' ']
  parts : List KeyPart
  /-- The white space at the end of the list. -/
  closing : Text := []

namespace KeyLine

open IndexLine (IsFirst)

/-- `PRIMARY KEY`, with `CONSTRAINT` and a name in front of it or without, or `UNIQUE KEY`, with a
name behind it or without. -/
inductive SpellsWords : Bool → List Lexeme → Prop
  | primary {a b : Lexeme} (ha : IsFirst "PRIMARY" a) (hb : IsKeyword "KEY" b) :
      SpellsWords true [a, b]
  | constraint {name : Text} {c n a b : Lexeme} (hc : IsFirst "CONSTRAINT" c) (hg : IsGap n.gap)
      (hn : n.Names name) (ha : IsKeyword "PRIMARY" a) (hb : IsKeyword "KEY" b) :
      SpellsWords true [c, n, a, b]
  | unique {a b : Lexeme} (ha : IsFirst "UNIQUE" a) (hb : IsKeyword "KEY" b) :
      SpellsWords false [a, b]
  | named {name : Text} {a b n : Lexeme} (ha : IsFirst "UNIQUE" a) (hb : IsKeyword "KEY" b)
      (hg : IsGap n.gap) (hn : n.Names name) : SpellsWords false [a, b, n]

variable (l : KeyLine)

def list : List Lexeme := group l.opening (l.parts.map (·.lexemes)) l.closing

def lexemes : List Lexeme := l.words ++ l.list

structure WellFormed : Prop where
  words : SpellsWords l.isPrimary l.words
  opening : ∀ c ∈ l.opening, isSeparator c = true
  parts : ∀ p ∈ l.parts, p.WellFormed
  closing : ∀ c ∈ l.closing, isSeparator c = true

/-- The key of the columns that the list names. -/
def fragment : Fragment :=
  if l.isPrimary then .primaryKey (l.parts.map (·.name)) else .uniqueKey (l.parts.map (·.name))

variable {l}

private theorem apart_list (h : l.WellFormed) : Apart l.list := by
  refine apart_group h.opening h.closing fun e he => ?_
  obtain ⟨p, hp, rfl⟩ := List.mem_map.1 he
  exact (h.parts p hp).clear

/-- The first keyword stands by itself, and white space is in front of the others. -/
theorem SpellsWords.exists_first {isPrimary : Bool} {words : List Lexeme}
    (h : SpellsWords isPrimary words) :
    ∃ a rest, words = a :: rest ∧ Clear [a] [] ∧ Apart rest := by
  cases h with
  | primary ha hb | unique ha hb => exact ⟨_, _, rfl, ha.bare.clear ha.gap, hb.apart⟩
  | constraint hc hg hn ha hb =>
    exact ⟨_, _, rfl, hc.bare.clear hc.gap, (hn.apart hg).append (ha.apart.append hb.apart)⟩
  | named ha hb hg hn =>
    exact ⟨_, _, rfl, ha.bare.clear ha.gap, hb.apart.append (hn.apart hg)⟩

private theorem clear_lexemes (h : l.WellFormed) : Clear l.lexemes [] := by
  obtain ⟨a, rest, hwords, ha, hrest⟩ := h.words.exists_first
  have hclear := clear_append_apart ha (hrest.append (apart_list h))
  rwa [← List.append_assoc, List.singleton_append, ← hwords] at hclear

private theorem afterKey?_list (h : l.WellFormed) (keyword : String) :
    Fragment.afterKey? keyword l.list = none := by
  have hnone := Fragment.afterKey?_group keyword l.opening (l.parts.map fun p => (p.first, p.rest))
    (List.forall_mem_map.2 fun p hp => (h.parts p hp).keyless) l.closing
  rwa [List.map_map] at hnone

private theorem columnNames_list (h : l.WellFormed) (ls : List Lexeme)
    (hls : ∀ m ∈ ls, m.token ≠ .openParen) :
    Fragment.columnNames (ls ++ l.list) = l.parts.map (·.name) := by
  have hled := Fragment.columnNames_led (l.parts.map fun p => (p.first, p.rest)) hls
    (List.forall_mem_map.2 fun p hp => ⟨(h.parts p hp).names.isInner, (h.parts p hp).enclosed⟩)
    l.opening l.closing
  rw [List.map_map, List.flatMap_map] at hled
  refine hled.trans ?_
  have hnames : ∀ p ∈ l.parts, p.first.token.name?.toList = [p.name] := fun p hp => by
    rw [(h.parts p hp).names.name?]
    rfl
  calc l.parts.flatMap (fun p => p.first.token.name?.toList)
      = l.parts.flatMap fun p => [p.name] := List.flatMap_congr hnames
    _ = l.parts.map (·.name) := List.flatMap_pure_eq_map _ _

/-- A fragment that begins with the keywords of a key is one. -/
theorem read_words {k : String} {a b : Lexeme} (hk : k ∈ ["PRIMARY", "UNIQUE"]) (ha : IsFirst k a)
    (hb : IsKeyword "KEY" b) (ls : List Lexeme) :
    Fragment.read (a :: b :: ls) = { result := .ok (Fragment.ofConstraint (a :: b :: ls)) } := by
  have hone : ∀ k ∈ ["PRIMARY", "UNIQUE"], Text.same k.toList "CONSTRAINT".toList = false ∧
      Text.oneOf ["KEY", "INDEX", "FULLTEXT", "SPATIAL"] k.toList = false ∧
      Text.oneOf Fragment.constraintKeywords k.toList = true := by decide
  obtain ⟨hconstraint, hindex, hkeyword⟩ := hone k hk
  have hword := fun w : String => @Token.isWord_of_isWord a.token k w ha.isWord
  have honeOf := Token.isOneOf_of_isWord ha.isWord
  have hnamed : Fragment.isNamedIndex (a :: b :: ls) = false := by
    simp only [Fragment.isNamedIndex, hword, hconstraint, honeOf, hindex, Bool.false_and,
      Bool.false_eq_true, if_false, Bool.and_false]
  have htype := Fragment.typeName?_keyword (m := "KEY") (by simp) hb ls
  simp only [Fragment.read, ha.name?, hnamed, Bool.false_eq_true, if_false, Fragment.readNamed, htype,
    honeOf, hkeyword, if_true]

private theorem afterKey?_words {k : String} {a b : Lexeme} (ha : a.token.isWord k = true)
    (hb : b.token.isWord "KEY" = true) (ls : List Lexeme) :
    Fragment.afterKey? k (a :: b :: ls) = some ls := by
  simp [Fragment.afterKey?, nextIs, ha, hb]

/-- No primary key is declared by the keywords of a unique one. -/
theorem afterKey?_primary {a b : Lexeme} (ha : IsFirst "UNIQUE" a) (hb : IsKeyword "KEY" b)
    (ls : List Lexeme) :
    Fragment.afterKey? "PRIMARY" (a :: b :: ls) = Fragment.afterKey? "PRIMARY" ls := by
  have hfirst : a.token.isWord "PRIMARY" = false :=
    (Token.isWord_of_isWord ha.isWord).trans (by decide)
  have hsecond : b.token.isWord "PRIMARY" = false :=
    (Token.isWord_of_isWord hb.isWord).trans (by decide)
  rw [Fragment.afterKey?_cons (by rw [hfirst, Bool.false_and]),
    Fragment.afterKey?_cons (by rw [hsecond, Bool.false_and])]

private theorem ofConstraint_lexemes (h : l.WellFormed) :
    Fragment.ofConstraint l.lexemes = l.fragment := by
  have hlist := afterKey?_list h "PRIMARY"
  have hwords := h.words
  rw [lexemes, fragment]
  generalize l.isPrimary = isPrimary at hwords
  generalize l.words = words at hwords
  cases hwords with
  | @primary a b ha hb =>
    have hafter : Fragment.afterKey? "PRIMARY" ([a, b] ++ l.list) = some l.list :=
      afterKey?_words ha.isWord hb.isWord _
    rw [Fragment.ofConstraint, hafter, if_pos rfl]
    exact congrArg Fragment.primaryKey (columnNames_list h [] (List.forall_mem_nil _))
  | @constraint name c n a b hc hg hn ha hb =>
    -- a name that is a keyword itself has `PRIMARY` behind it and no `KEY`
    have hfirst : c.token.isWord "PRIMARY" = false :=
      (Token.isWord_of_isWord hc.isWord).trans (by decide)
    have hsecond : nextIs "KEY" (a :: b :: l.list) = false :=
      (Token.isWord_of_isWord ha.isWord).trans (by decide)
    have hafter : Fragment.afterKey? "PRIMARY" ([c, n, a, b] ++ l.list) = some l.list := by
      rw [List.cons_append, Fragment.afterKey?_cons (by rw [hfirst, Bool.false_and]),
        List.cons_append]
      exact (Fragment.afterKey?_cons ((congrArg _ hsecond).trans (Bool.and_false _))).trans
        (afterKey?_words ha.isWord hb.isWord _)
    rw [Fragment.ofConstraint, hafter, if_pos rfl]
    exact congrArg Fragment.primaryKey (columnNames_list h [] (List.forall_mem_nil _))
  | @unique a b ha hb =>
    have hprimary : Fragment.afterKey? "PRIMARY" ([a, b] ++ l.list) = none :=
      (afterKey?_primary ha hb _).trans hlist
    have hafter : Fragment.afterKey? "UNIQUE" ([a, b] ++ l.list) = some l.list :=
      afterKey?_words ha.isWord hb.isWord _
    rw [Fragment.ofConstraint, hprimary, hafter, if_neg Bool.false_ne_true]
    exact congrArg Fragment.uniqueKey (columnNames_list h [] (List.forall_mem_nil _))
  | @named name a b n ha hb hg hn =>
    have hprimary : Fragment.afterKey? "PRIMARY" ([a, b, n] ++ l.list) = none :=
      (afterKey?_primary ha hb _).trans ((Fragment.afterKey?_cons (Bool.and_false _)).trans hlist)
    have hafter : Fragment.afterKey? "UNIQUE" ([a, b, n] ++ l.list) = some (n :: l.list) :=
      afterKey?_words ha.isWord hb.isWord _
    have hopen : ∀ m ∈ [n], m.token ≠ .openParen := by
      rw [List.forall_mem_singleton]
      intro he
      have := hn.name?
      rw [he] at this
      cases this
    rw [Fragment.ofConstraint, hprimary, hafter, if_neg Bool.false_ne_true]
    exact congrArg Fragment.uniqueKey (columnNames_list h [n] hopen)

/-- A constraint with a name is known by the keyword behind the name. -/
theorem read_constraint {c n a : Lexeme} (hc : IsFirst "CONSTRAINT" c)
    (ha : IsKeyword "PRIMARY" a) (ls : List Lexeme) :
    Fragment.read (c :: n :: a :: ls) =
      { result := .ok (Fragment.ofConstraint (c :: n :: a :: ls)) } := by
  have hkeyword : a.token.isOneOf Fragment.constraintKeywords = true :=
    (Token.isOneOf_of_isWord ha.isWord _).trans (by decide)
  have hnamed : Fragment.isNamedIndex (c :: n :: a :: ls) = true := by
    simp [Fragment.isNamedIndex, hc.head?_ne_tick, hc.isWord, hkeyword]
  simp only [Fragment.read, hc.name?, hnamed, if_true]

private theorem read_lexemes (h : l.WellFormed) :
    Fragment.read l.lexemes = { result := .ok l.fragment } := by
  have hwords := h.words
  rw [← ofConstraint_lexemes h, lexemes]
  generalize l.isPrimary = isPrimary at hwords
  generalize l.words = words at hwords
  cases hwords with
  | primary ha hb => exact read_words (by simp) ha hb _
  | unique ha hb => exact read_words (by simp) ha hb _
  | named ha hb _ _ => exact read_words (by simp) ha hb _
  | constraint hc _ _ ha _ => exact read_constraint hc ha _

/-- The line of a key gives the names of its columns in order and no problem, whatever the names
are. -/
theorem read_key (h : l.WellFormed) :
    Fragment.read (tokenize (source l.lexemes)) = { result := .ok l.fragment, problems := [] } := by
  rw [tokenize_source (clear_lexemes h), read_lexemes h]

/-- Names may be keywords or types, and a quote within a name is doubled. -/
theorem read_key_constraint :
    Fragment.read (tokenize
      "CONSTRAINT \x60primary\x60 PRIMARY KEY (\"key\"(10) DESC, uuid, \x60a\x60\x60b\x60)") =
      { result := .ok (.primaryKey ["key".toList, "uuid".toList, "a\x60b".toList]) } := by
  let line : KeyLine :=
    { isPrimary := true
      words := [⟨[], "CONSTRAINT", .word "CONSTRAINT"⟩,
        ⟨[' '], Text.enclosed '\x60' "primary", .word "primary"⟩, keyword "PRIMARY", keyword "KEY"]
      parts := [
        { name := "key"
          first := ⟨[], Text.enclosed '\"' "key", .quoted '\"' "key"⟩
          rest := group [] [[⟨[], "10", .number "10"⟩]] [] ++ [keyword "DESC"] },
        { name := "uuid", first := keyword "uuid" },
        { name := "a\x60b", first := ⟨[' '], Text.enclosed '\x60' "a\x60b", .word "a\x60b"⟩ }] }
  have hten : IsNumber "10" := ⟨by decide, .whole (List.all_eq_true.1 rfl) rfl⟩
  have hline : line.WellFormed :=
    { words := .constraint ⟨List.forall_mem_nil _, ⟨by decide, rfl, rfl⟩, by decide⟩
        isGap_space .ticked (isKeyword_keyword (by decide)) (isKeyword_keyword (by decide))
      opening := isGap_space.separators
      parts := by
        simp only [line, List.forall_mem_cons]
        refine ⟨⟨List.forall_mem_nil _, .quoted (by decide), _, _, rfl, ?_, ?_⟩,
          ⟨isGap_space.separators, .bare ⟨by decide, rfl, rfl⟩, [], [], rfl, .absent, .absent⟩,
          ⟨isGap_space.separators, .ticked, [], [], rfl, .absent, .absent⟩, List.forall_mem_nil _⟩
        · exact .number (List.forall_mem_nil _) (List.forall_mem_nil _) (List.forall_mem_nil _)
            hten rfl
        · exact .word (k := "DESC") (by simp) (isKeyword_keyword (by decide))
      closing := List.forall_mem_nil _ }
  exact read_key hline

end KeyLine

end TableDialects
