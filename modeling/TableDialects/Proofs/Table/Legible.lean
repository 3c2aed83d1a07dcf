import Mathlib.Data.Option.Basic
import TableDialects.Proofs.Column.Legible
import TableDialects.Proofs.Table.Assembly
import TableDialects.Proofs.Table.Body

/-!
# Legible tables

A table is legible in a dialect if what the dialect writes for it is read back. What is read back
has the same names and keys, and its columns are those that the dialect stores.
-/
namespace TableDialects.Table

open Lexeme

/-- What a dialect writes for the table can be read back. -/
structure Legible (d : Dialect) (t : Table) : Prop where
  name : d.CanName t.name
  unqualified : '.' ∉ t.name
  ne_nil : t.columns ≠ []
  distinct : Distinct (t.columns.map (·.name))
  columns : ∀ c ∈ t.columns, c.Legible d
  /-- The primary key is a column, or several columns are the key, or there is none. -/
  keys : (∃ c ∈ t.columns, t.primaryKey = some c.name) ∧ t.compositeKey = [] ∨
    t.primaryKey = none ∧ (t.compositeKey = [] ∨
      2 ≤ t.compositeKey.length ∧ ∀ n ∈ t.compositeKey, Keyed t.columns n)
  /-- Only MySQL writes that a column counts up by itself. -/
  counting : d.family = .mysql → (∃ c ∈ t.columns, c.autoIncrement = true) →
    t.primaryKey.isSome = true ∨ t.compositeKey ≠ []

/-- What stands in front of each line of a body. -/
def lineGap (l : Layout) : Text := '\n' :: List.replicate l.indent ' '

def columnEntry (d : Dialect) (l : Layout) (t : Table) (c : Column) : List Lexeme :=
  d.nameLexeme (lineGap l) c.name :: (c.phrase d (t.isPrimary c.name)).afterName

def keyNames (d : Dialect) : List Text → List Lexeme
  | [] => []
  | n :: ns => d.nameLexeme [] n :: ns.map (d.nameLexeme [' '])

def keyEntry (d : Dialect) (l : Layout) (names : List Text) : List Lexeme :=
  ⟨lineGap l, "PRIMARY".toList, .word "PRIMARY"⟩ :: keyword "KEY" ::
    group [' '] ((keyNames d names).map fun n => [n]) []

def entriesOf (d : Dialect) (l : Layout) (t : Table) : List (List Lexeme) :=
  t.columns.map (columnEntry d l t) ++
    if t.compositeKey.isEmpty then [] else [keyEntry d l t.compositeKey]

/-- The lexemes of a definition. -/
def lexemes (d : Dialect) (l : Layout) (t : Table) : List Lexeme :=
  ⟨[], "CREATE".toList, .word "CREATE"⟩ :: keyword "TABLE" :: d.nameLexeme [' '] t.name ::
    group [' '] (entriesOf d l t) ['\n']

/-- The table that is read back. -/
def reread (d : Dialect) (t : Table) : Table where
  name := t.name
  columns := t.columns.map fun c =>
    c.reread d (t.isPrimary c.name) (t.isPrimary c.name || t.compositeKey.contains c.name)
  primaryKey := t.primaryKey
  compositeKey := t.compositeKey

/-- The problems of what a dialect writes: enumerations without values. -/
def problems (d : Dialect) (t : Table) : List Problem :=
  t.columns.flatMap fun c => (c.phrase d (t.isPrimary c.name)).problems

section
variable {d : Dialect} {l : Layout} {t : Table}

theorem isSeparator_lineGap (l : Layout) : ∀ c ∈ lineGap l, isSeparator c = true := by
  intro c hc
  rcases List.mem_cons.1 hc with rfl | hc
  · rfl
  · obtain rfl := List.eq_of_mem_replicate hc
    rfl

private theorem mem_keyNames {names : List Text} : ∀ n ∈ keyNames d names, ∃ g m,
    m ∈ names ∧ (∀ c ∈ g, isSeparator c = true) ∧ n = d.nameLexeme g m := by
  intro n hn
  cases names with
  | nil => simp [keyNames] at hn
  | cons m ms =>
    rcases List.mem_cons.1 hn with rfl | hn
    · exact ⟨[], m, by simp, by simp, rfl⟩
    · obtain ⟨k, hk, rfl⟩ := List.mem_map.1 hn
      exact ⟨[' '], k, by simp [hk], by simp [isSeparator], rfl⟩

private theorem isInner_keyNames {names : List Text} :
    ∀ n ∈ keyNames d names, Token.isInner n.token = true := by
  intro n hn
  obtain ⟨g, m, -, -, rfl⟩ := mem_keyNames n hn
  exact d.isInner_nameToken m

private theorem enclosed_columnEntry (t : Table) (c : Column) :
    Token.Enclosed ((columnEntry d l t c).map (·.token)) := by
  have hn := @enclosed_singleton (d.nameLexeme (lineGap l) c.name) (d.isInner_nameToken c.name)
  exact hn.append ColumnPhrase.enclosed_afterName

private theorem enclosed_keyEntry (names : List Text) :
    Token.Enclosed ((keyEntry d l names).map (·.token)) := by
  have hw : Token.Enclosed [.word "PRIMARY", .word "KEY"] := rfl
  have hg := @enclosed_group [' '] [] _ (enclosed_singletons (@isInner_keyNames d names))
  exact hw.append hg

private theorem enclosed_entriesOf (t : Table) :
    ∀ e ∈ entriesOf d l t, e ≠ [] ∧ Token.Enclosed (e.map (·.token)) := by
  intro e he
  rcases List.mem_append.1 he with he | he
  · obtain ⟨c, -, rfl⟩ := List.mem_map.1 he
    exact ⟨by simp [columnEntry], enclosed_columnEntry t c⟩
  · split at he
    · simp at he
    · obtain rfl := List.mem_singleton.1 he
      exact ⟨by simp [keyEntry], enclosed_keyEntry _⟩

theorem clear_columnEntry {c : Column} (h : c.Legible d) (t : Table) :
    Clear (columnEntry d l t c) [] :=
  clear_append_apart (Dialect.clear_nameLexeme h.name (isSeparator_lineGap l))
    (ColumnPhrase.apart_afterName (Column.wellFormed_phrase h _))

private theorem clear_first {g w : Text} (hg : ∀ c ∈ g, isSeparator c = true) (hw : IsWord w) :
    Clear [⟨g, w, .word w⟩] [] :=
  ⟨⟨hg, by simpa using hw.startsToken [], hw.written rfl⟩, trivial⟩

theorem clear_keyEntry {names : List Text} (h : ∀ n ∈ names, d.CanName n) :
    Clear (keyEntry d l names) [] := by
  have hn : ∀ e ∈ (keyNames d names).map fun n => [n], Clear e [] := by
    intro e he
    obtain ⟨n, hn, rfl⟩ := List.mem_map.1 he
    obtain ⟨g, m, hm, hg, rfl⟩ := mem_keyNames n hn
    exact Dialect.clear_nameLexeme (h m hm) hg
  have hgroup := @apart_group [' '] [] _ (by simp [isSeparator]) (by simp) hn
  exact clear_append_apart (clear_first (isSeparator_lineGap l) (by decide))
    ((apart_keyword (by decide)).append hgroup)

theorem Legible.canName_key (h : t.Legible d) : ∀ n ∈ t.compositeKey, d.CanName n := by
  intro n hn
  rcases h.keys with ⟨-, hk⟩ | ⟨-, hk | ⟨-, hk⟩⟩
  · exact absurd hn (by simp [hk])
  · exact absurd hn (by simp [hk])
  · obtain ⟨c, hc, rfl, -⟩ := hk n hn
    exact (h.columns c hc).name

private theorem Legible.clear_entriesOf (h : t.Legible d) : ∀ e ∈ entriesOf d l t, Clear e [] := by
  intro e he
  rcases List.mem_append.1 he with he | he
  · obtain ⟨c, hc, rfl⟩ := List.mem_map.1 he
    exact clear_columnEntry (h.columns c hc) t
  · split at he
    · simp at he
    · obtain rfl := List.mem_singleton.1 he
      exact clear_keyEntry h.canName_key

theorem Legible.clear_lexemes (h : t.Legible d) : Clear (lexemes d l t) [] := by
  have hgroup := @apart_group [' '] ['\n'] _ (by simp [isSeparator])
    (by simp [isSeparator]) (h.clear_entriesOf (l := l))
  have hname := Dialect.clear_nameLexeme (g := [' ']) h.name (by simp [isSeparator])
  have hfirst := clear_first (g := []) (w := "CREATE") (by simp) (by decide)
  have hapart : Apart [d.nameLexeme [' '] t.name] := ⟨hname, rfl⟩
  exact clear_append_apart hfirst ((apart_keyword (w := "TABLE") (by decide)).append
    (hapart.append hgroup))

private theorem flatMap_keyNames (names : List Text) :
    (keyNames d names).flatMap (·.token.name?.toList) = names := by
  have hg : ∀ (g : Text) (ns : List Text),
      (ns.map (d.nameLexeme g)).flatMap (·.token.name?.toList) = ns := by
    intro g ns
    simp [List.flatMap_map, Dialect.nameLexeme]
  cases names with
  | nil => rfl
  | cons n ns =>
    rw [keyNames, List.flatMap_cons, hg]
    simp [Dialect.nameLexeme]

private theorem columnNames_group (names : List Text) :
    Fragment.columnNames (group [' '] ((keyNames d names).map fun n => [n]) []) = names := by
  have hnames := @Fragment.columnNames_append [] (keyNames d names) (by simp) isInner_keyNames [' '] []
  rw [List.nil_append] at hnames
  rw [hnames, flatMap_keyNames]

/-- The key is read back from its line. -/
theorem read_keyEntry (names : List Text) :
    Fragment.read (keyEntry d l names) = { result := .ok (.primaryKey names) } := by
  have hw : (Token.word "PRIMARY").isWord "PRIMARY" = true ∧
      (Token.word "PRIMARY").isWord "CONSTRAINT" = false ∧
      (Token.word "PRIMARY").isOneOf ["KEY", "INDEX", "FULLTEXT", "SPATIAL"] = false ∧
      (Token.word "PRIMARY").isOneOf Fragment.constraintKeywords = true := by decide
  have hkey : (keyword "KEY").token.isWord "KEY" = true := by decide
  have hrecognized : ColumnType.isRecognized "KEY" = false := by decide
  have hnamed : Fragment.isNamedIndex (keyEntry d l names) = false := by
    simp only [Fragment.isNamedIndex, keyEntry, hw, Bool.false_and, Bool.false_eq_true, if_false,
      Bool.and_false]
  have htype : (Fragment.typeName? (keyword "KEY" ::
      group [' '] ((keyNames d names).map fun n => [n]) [])).filter
        (ColumnType.isRecognized ·.1) = none := by
    change (some (_, _)).filter _ = none
    rw [Option.filter_some, if_neg fun he => Bool.false_ne_true (hrecognized.symm.trans he)]
  have hconstraint : Fragment.ofConstraint (keyEntry d l names) = .primaryKey names := by
    have hafter : Fragment.afterKey? "PRIMARY" (keyEntry d l names) =
        some (group [' '] ((keyNames d names).map fun n => [n]) []) := by
      rw [keyEntry, Fragment.afterKey?]
      simp only [hw, nextIs, hkey, Bool.and_self, if_true]
      rfl
    rw [Fragment.ofConstraint, hafter]
    simp only [columnNames_group]
  have hname : (Token.word "PRIMARY").name? = some "PRIMARY".toList := rfl
  rw [keyEntry] at hnamed hconstraint ⊢
  simp only [Fragment.read, hname, hnamed, Fragment.readNamed, htype, hw, hconstraint]
  rfl

private theorem header?_lexemes (t : Table) :
    header? (lexemes d l t) = some (t.name, group [' '] (entriesOf d l t) ['\n']) := by
  have hcreate : (Token.word "CREATE").isWord "CREATE" = true := by decide
  have htable : (keyword "TABLE").token.isOneOf
      ["TEMPORARY", "TEMP", "UNLOGGED", "GLOBAL", "LOCAL"] = false ∧
      (keyword "TABLE").token.isWord "TABLE" = true := by decide
  have hafter : headerAfterCreate? (keyword "TABLE" :: d.nameLexeme [' '] t.name ::
      group [' '] (entriesOf d l t) ['\n']) =
      some (t.name, group [' '] (entriesOf d l t) ['\n']) := by
    have hdrop : (keyword "TABLE" :: d.nameLexeme [' '] t.name ::
        group [' '] (entriesOf d l t) ['\n']).dropWhile
          (·.token.isOneOf ["TEMPORARY", "TEMP", "UNLOGGED", "GLOBAL", "LOCAL"]) =
        keyword "TABLE" :: d.nameLexeme [' '] t.name :: group [' '] (entriesOf d l t) ['\n'] := by
      rw [List.dropWhile_cons, htable.1]
      rfl
    have hnext : nextIs "TABLE" (keyword "TABLE" :: d.nameLexeme [' '] t.name ::
        group [' '] (entriesOf d l t) ['\n']) = true := htable.2
    -- the parenthesis after the name is no `NOT`, even if the name is `IF`
    have hif : (nextIs "IF" (d.nameLexeme [' '] t.name :: group [' '] (entriesOf d l t) ['\n']) &&
        nextIs "NOT" (group [' '] (entriesOf d l t) ['\n']) &&
        nextIs "EXISTS" ((group [' '] (entriesOf d l t) ['\n']).drop 1)) = false := by
      have hnot : nextIs "NOT" (group [' '] (entriesOf d l t) ['\n']) = false := rfl
      rw [hnot, Bool.and_false, Bool.false_and]
    have hparts : nameParts? (group [' '] (entriesOf d l t) ['\n']) =
        some ([], group [' '] (entriesOf d l t) ['\n']) := rfl
    have hname : (d.nameLexeme [' '] t.name).token.name? = some t.name := d.name?_nameToken t.name
    simp only [headerAfterCreate?, hdrop, hnext, List.drop_succ_cons, List.drop_zero, hif,
      Bool.false_eq_true, if_false, List.head?_cons, Option.bind_some, hname, hparts]
    simp [Text.join, group]
  rw [lexemes, header?, hcreate, if_pos rfl, hafter]
  rfl

/-- The columns that are read and whether each carries the primary key. -/
def readColumns (d : Dialect) (t : Table) : List (Column × Bool) :=
  t.columns.map fun c => ((c.phrase d (t.isPrimary c.name)).column, t.isPrimary c.name)

private theorem names_readColumns (d : Dialect) (t : Table) :
    (readColumns d t).map (·.1.name) = t.columns.map (·.name) := by
  rw [readColumns, List.map_map]
  rfl

theorem isPrimary_self {name : Text} (h : t.primaryKey = some name) : t.isPrimary name = true := by
  rw [isPrimary, h]
  exact same_self name

theorem Legible.isPrimary_iff (h : t.Legible d) {c : Column} (hc : c ∈ t.columns) :
    t.isPrimary c.name = true ↔ t.primaryKey = some c.name := by
  constructor
  · intro hp
    cases hk : t.primaryKey with
    | none => simp [isPrimary, hk] at hp
    | some k =>
      rw [isPrimary, hk] at hp
      rcases h.keys with ⟨⟨e, he, hek⟩, -⟩ | ⟨hn, -⟩
      · obtain rfl : k = e.name := Option.some.inj (hk.symm.trans hek)
        rw [h.distinct.eq_of_same (List.mem_map_of_mem he) (List.mem_map_of_mem hc) hp]
      · exact absurd (hk.symm.trans hn) (by simp)
  · exact isPrimary_self

private theorem Legible.keyedBy (h : t.Legible d) : KeyedBy t.compositeKey (readColumns d t) where
  distinct := names_readColumns d t ▸ h.distinct
  fresh p hp := by
    obtain ⟨c, -, rfl⟩ := List.mem_map.1 hp
    rfl
  known n hn := by
    rw [names_readColumns]
    rcases h.keys with ⟨-, hk⟩ | ⟨-, hk | ⟨-, hk⟩⟩
    · exact absurd hn (by simp [hk])
    · exact absurd hn (by simp [hk])
    · obtain ⟨c, hc, rfl, -⟩ := hk n hn
      exact List.mem_map_of_mem hc
  alternative := by
    rcases h.keys with ⟨-, hk⟩ | ⟨hn, hk | ⟨hk, -⟩⟩
    · exact .inl hk
    · exact .inl hk
    · refine .inr ⟨hk, fun p hp => ?_⟩
      obtain ⟨c, -, rfl⟩ := List.mem_map.1 hp
      simp [isPrimary, hn]
  counting := by
    rintro ⟨p, hp, ha⟩
    obtain ⟨c, hc, rfl⟩ := List.mem_map.1 hp
    have ha : (c.autoIncrement && d.autoIncrement?.isSome) = true := ha
    rw [Bool.and_eq_true] at ha
    have hd : d.family = .mysql := by
      cases d with
      | mysql => rfl
      | mariadb => rfl
      | _ => exact absurd ha.2 (by decide)
    rcases h.counting hd ⟨c, hc, ha.1⟩ with hp | hk
    · rcases h.keys with ⟨⟨e, he, hek⟩, -⟩ | ⟨hn, -⟩
      · exact .inr ⟨_, List.mem_map_of_mem he, isPrimary_self hek⟩
      · exact absurd hp (by simp [hn])
    · exact .inl hk

private theorem Legible.mem_inlineNames (h : t.Legible d) {n : Text} :
    n ∈ inlineNames (readColumns d t) ↔ t.primaryKey = some n := by
  constructor
  · intro hn
    obtain ⟨p, hp, rfl⟩ := List.mem_map.1 hn
    obtain ⟨hp, hprimary⟩ := List.mem_filter.1 hp
    obtain ⟨c, hc, rfl⟩ := List.mem_map.1 hp
    exact (h.isPrimary_iff hc).1 hprimary
  · intro hn
    rcases h.keys with ⟨⟨c, hc, hk⟩, -⟩ | ⟨hk, -⟩
    · obtain rfl : n = c.name := Option.some.inj (hn.symm.trans hk)
      refine List.mem_map.2
        ⟨((c.phrase d (t.isPrimary c.name)).column, t.isPrimary c.name), ?_, rfl⟩
      exact List.mem_filter.2 ⟨List.mem_map_of_mem hc, isPrimary_self hk⟩
    · exact absurd (hn.symm.trans hk) (by simp)

private theorem Legible.head?_inlineNames (h : t.Legible d) :
    (inlineNames (readColumns d t)).head? = t.primaryKey := by
  cases hn : (inlineNames (readColumns d t)).head? with
  | none =>
    cases hk : t.primaryKey with
    | none => rfl
    | some k =>
      have hm := h.mem_inlineNames.2 hk
      rw [List.head?_eq_none_iff.1 hn] at hm
      simp at hm
  | some n => exact (h.mem_inlineNames.1 (List.mem_of_mem_head? hn)).symm

/-- The fragments of a definition are read one by one. -/
theorem Legible.readings_entriesOf (h : t.Legible d) :
    readings (entries (entriesOf d l t)) =
      t.columns.map (fun c =>
        { result := .ok (.column (c.phrase d (t.isPrimary c.name)).column (t.isPrimary c.name)),
          problems := (c.phrase d (t.isPrimary c.name)).problems }) ++
      (keyFragments t.compositeKey).map fun f => { result := .ok f } := by
  rw [readings, fragments_entries (enclosed_entriesOf t), entriesOf, List.map_append, List.map_map]
  have hcolumns := List.map_congr_left fun c hc =>
    Column.read_phrase (h.columns c hc) (t.isPrimary c.name) (lineGap l)
  refine congr (congrArg _ hcolumns) ?_
  unfold keyFragments
  split
  · rfl
  · rw [List.map_singleton, read_keyEntry]
    rfl

private theorem Legible.results_entriesOf (h : t.Legible d) :
    (readings (entries (entriesOf d l t))).filterMap (·.result.toOption) =
      columnFragments (readColumns d t) ++ keyFragments t.compositeKey := by
  rw [h.readings_entriesOf, List.filterMap_append, List.filterMap_map, List.filterMap_map]
  simp [columnFragments, readColumns, Function.comp_def, Except.toOption]

private theorem Legible.problems_entriesOf (h : t.Legible d) :
    (readings (entries (entriesOf d l t))).flatMap Reading.problems = t.problems d := by
  rw [h.readings_entriesOf, List.flatMap_append, List.flatMap_map, List.flatMap_map]
  simp [problems, Reading.problems]

/-- What a dialect writes for a legible table is read back. -/
theorem Legible.read_source (h : t.Legible d) (l : Layout) :
    read (source (lexemes d l t)) = ⟨.ok (t.reread d), t.problems d⟩ := by
  have hinner := @groupInner_group [' '] ['\n'] (entriesOf d l t)
    (fun e he => (enclosed_entriesOf t e he).2) []
  rw [List.append_nil] at hinner
  have hresults := h.results_entriesOf (l := l)
  have hproblems := h.problems_entriesOf (l := l)
  have hne : readColumns d t ≠ [] := by simpa [readColumns] using h.ne_nil
  have hcolumns : (readColumns d t).map (settle t.compositeKey) = (t.reread d).columns := by
    rw [readColumns, List.map_map]
    rfl
  simp only [read, tokenize_source h.clear_lexemes, header?_lexemes, hinner, hresults, hproblems,
    assemble_columns h.keyedBy t.name hne, h.head?_inlineNames, hcolumns]
  rfl

end

end TableDialects.Table
