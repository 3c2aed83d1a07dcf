import TableDialects.Proofs.Column.Typed
import TableDialects.Proofs.DefaultValue.Update

/-!
# Update clauses of a column

An update clause stands directly behind the default of its column, or apart from it. The column is
the same if the normal form of the default agrees with the default.
-/
namespace TableDialects

open Lexeme

namespace DefaultValue

/-- A number, a word that begins no clause, or a call. -/
def IsUnquoted (t : Text) : Prop :=
  ∃ v : ValuePhrase, v.WellFormed ∧ v.isLiteral = false ∧ v.text = t

/-- A literal, a number, a word that begins no clause, or a call. -/
inductive IsValue : Text → Prop
  | literal {v s : Text} {q : Char} (hq : q = '\'' ∨ q = '\"') (h : Token.Quotes q v s) :
    IsValue (q :: s)
  | signed {ds : Text} {sign : Char} (hs : sign = '-' ∨ sign = '+') (h : IsNumber ds) :
    IsValue (sign :: ds)
  | unquoted {t : Text} (h : IsUnquoted t) : IsValue t

/-- What happens on an update: a call, or a word that is no referential action. -/
structure IsEvent (t : Text) : Prop where
  unquoted : IsUnquoted t
  no_action : Text.oneOf ["CASCADE", "RESTRICT", "SET", "NO"] t = false

/-- The lexemes are the value, a space in front of them, and the value ends where a gap follows. -/
structure Reads (t : Text) (ls : List Lexeme) : Prop where
  apart : Apart ls
  source : source ls = ' ' :: t
  sourceFromToken : ∀ rest, sourceFromToken (ls ++ rest) = t ++ Lexeme.source rest
  valueLength? : ∀ rest, (∀ l ∈ rest.head?, l.gap ≠ []) →
    valueLength? (ls ++ rest) = some ls.length

private theorem IsUnquoted.exists_reads {t : Text} (h : IsUnquoted t) : ∃ ls, Reads t ls := by
  obtain ⟨v, hv, -, rfl⟩ := h
  exact ⟨v.lexemes, ValuePhrase.apart_lexemes hv, v.source_lexemes, v.sourceFromToken_lexemes,
    fun _ hg => ValuePhrase.valueLength?_lexemes hv hg⟩

private theorem IsValue.exists_reads {t : Text} (h : IsValue t) : ∃ ls, Reads t ls := by
  cases h with
  | literal hq h =>
    refine ⟨[⟨[' '], _, .quoted _ _⟩], FreeClause.apart_value (.literal isGap_space hq h), by simp,
      by simp [sourceFromToken], fun _ _ => rfl⟩
  | signed hs h =>
    refine ⟨[⟨[' '], [_], .punct _⟩, ⟨[], _, .number _⟩],
      FreeClause.apart_value (.signed isGap_space hs h), by simp, by simp [sourceFromToken],
      fun _ _ => ?_⟩
    rcases hs with rfl | rfl <;> rfl
  | unquoted h => exact h.exists_reads

private theorem isUnquoted_append {t : Text} (h : IsUnquoted t) : ∃ w u, t = w ++ u ∧ w ≠ [] ∧
    (∀ c ∈ w, ValuePhrase.IsPlain c) ∧ (u = [] ∨ ∃ r, u = '(' :: (r ++ [')'])) := by
  obtain ⟨v, hv, hl, rfl⟩ := h
  exact ValuePhrase.exists_plain hv hl

private theorem IsUnquoted.getLast? {t : Text} (h : IsUnquoted t) :
    ∀ c ∈ t.getLast?, Text.isBlank c = false ∧ Token.isQuote c = false := by
  obtain ⟨w, u, rfl, hne, hw, rfl | ⟨r, rfl⟩⟩ := isUnquoted_append h
  · intro c hc
    rw [List.append_nil] at hc
    have hplain := hw c (List.mem_of_getLast? hc)
    exact ⟨hplain.isBlank, hplain.isQuote⟩
  · intro c hc
    rw [← List.cons_append, ← List.append_assoc, List.getLast?_concat] at hc
    obtain rfl := Option.some.inj hc
    decide

private theorem IsUnquoted.joinable {t : Text} (h : IsUnquoted t) : Joinable t := by
  have hlast := fun c hc => (h.getLast? c hc).1
  obtain ⟨w, u, rfl, hne, hw, hu⟩ := isUnquoted_append h
  have hsolid : Text.Solid (w ++ u) := by
    refine ⟨by simp [hne], fun c hc => ?_, hlast⟩
    rw [List.head?_append_of_ne_nil _ hne] at hc
    exact (hw c (List.mem_of_mem_head? hc)).isBlank
  refine joinable_append hsolid hne (fun c hc => (hw c hc).isBlank) (fun hm => ?_) ?_
  · exact absurd (hw _ hm).isQuote (by decide)
  · rcases hu with rfl | ⟨r, rfl⟩ <;> simp

private theorem IsValue.joinable {t : Text} (h : IsValue t) : Joinable t := by
  cases h with
  | @literal v s q hq h =>
    have hquote : Text.isBlank q = false ∧ q ≠ '_' := by rcases hq with rfl | rfl <;> decide
    have hsolid : Text.Solid (q :: s) := by
      refine ⟨by simp, by simpa using hquote.1, fun c hc => ?_⟩
      rw [List.getLast?_cons, h.getLast?] at hc
      obtain rfl := Option.some.inj hc
      exact hquote.1
    exact joinable_of_head? hsolid (by simpa using hquote.2)
  | @signed ds sign hs h =>
    have hsign : Text.isBlank sign = false ∧ sign ≠ '_' := by rcases hs with rfl | rfl <;> decide
    obtain ⟨c, cs, rfl, -⟩ := h.exists_cons
    have hsolid : Text.Solid (sign :: c :: cs) := by
      refine ⟨by simp, by simpa using hsign.1, fun d hd => ?_⟩
      rw [List.getLast?_cons_cons] at hd
      exact ValuePhrase.IsPlain.isBlank (Token.mem_numeral h.numeral d (List.mem_of_getLast? hd))
    exact joinable_of_head? hsolid (by simpa using hsign.2)
  | unquoted h => exact h.joinable

end DefaultValue

namespace Clause

open DefaultValue

/-- The clause `DEFAULT` with a value. -/
def defaultLexemes (value : List Lexeme) : List Lexeme := keyword "DEFAULT" :: value

/-- The clause `ON UPDATE` with an event. -/
def updateLexemes (event : List Lexeme) : List Lexeme :=
  keyword "ON" :: keyword "UPDATE" :: event

def requiredLexemes : List Lexeme := [keyword "NOT", keyword "NULL"]

variable {h e : Text} {ls es rest : List Lexeme}

theorem source_defaultLexemes (hh : Reads h ls) :
    source (defaultLexemes ls) = " DEFAULT ".toList ++ h := by
  simp [defaultLexemes, keyword, hh.source]

theorem source_updateLexemes (he : Reads e es) :
    source (updateLexemes es) = " ON UPDATE ".toList ++ e := by
  simp [updateLexemes, keyword, he.source]

theorem source_requiredLexemes : source requiredLexemes = " NOT NULL".toList := by
  decide

theorem apart_defaultLexemes (hh : Reads h ls) : Apart (defaultLexemes ls) :=
  (apart_keyword (w := "DEFAULT") (by decide)).append hh.apart

theorem apart_updateLexemes (he : Reads e es) : Apart (updateLexemes es) :=
  (@apart_keywords ["ON", "UPDATE"] (by decide)).append he.apart

theorem apart_requiredLexemes : Apart requiredLexemes :=
  @apart_keywords ["NOT", "NULL"] (by decide)

theorem begins_required (rest : List Lexeme) : FreeClause.Begins (requiredLexemes ++ rest) := by
  intro l hl
  obtain rfl := Option.some.inj hl
  exact ⟨"NOT", by simp [FreeClause.firstWords], isGap_space, ⟨by decide, rfl, rfl⟩, by decide⟩

theorem readAll_required (rest : List Lexeme) :
    readAll (requiredLexemes ++ rest) = .notNull :: readAll rest :=
  ClausePhrase.readAll_cons ClausePhrase.read_not

private theorem expressionLength?_append (hh : Reads h ls) (hg : ∀ l ∈ rest.head?, l.gap ≠ []) :
    expressionLength? (ls ++ rest) = some (ls.length + suffixesLength rest) := by
  rw [expressionLength?, hh.valueLength? rest hg, Option.map_some, List.drop_left]

/-- A default has the casts and event clauses that follow its value. -/
theorem readAll_default (hh : Reads h ls) (hg : ∀ l ∈ rest.head?, l.gap ≠ []) :
    readAll (defaultLexemes ls ++ rest) =
      .defaultValue (h ++ source (rest.take (suffixesLength rest))) ::
        readAll (rest.drop (suffixesLength rest)) := by
  have hw := ClausePhrase.isWord_firstWords "DEFAULT" (by simp)
  have hc := ClausePhrase.isOneOf_firstWords "DEFAULT" (by simp)
  have hd : (keyword "DEFAULT").token.isWord "DEFAULT" = true := by decide
  have hread : Clause.read (keyword "DEFAULT") (ls ++ rest) =
      (.defaultValue (h ++ source (rest.take (suffixesLength rest))),
        ls.length + suffixesLength rest) := by
    simp only [Clause.read, hw, hc, hd, expressionLength?_append hh hg,
      List.take_length_add_append, hh.sourceFromToken]
    rfl
  rw [defaultLexemes, List.cons_append, ClausePhrase.readAll_cons hread,
    List.drop_length_add_append]

variable (he : Reads e es) (hb : FreeClause.Begins rest)
include he hb

private theorem readAll_update (ha : Text.oneOf ["CASCADE", "RESTRICT", "SET", "NO"] e = false) :
    readAll (updateLexemes es ++ rest) = .onUpdate e :: readAll rest := by
  have hnext : nextIs "UPDATE" (keyword "UPDATE" :: (es ++ rest)) = true :=
    show (keyword "UPDATE").token.isWord "UPDATE" = true by decide
  have hlength : expressionLength? (es ++ rest) = some es.length := by
    rw [expressionLength?_append he (FreeClause.gap_ne_nil hb),
      FreeClause.suffixesLength_of_begins hb, Nat.add_zero]
  have hself : sourceFromToken es = e := by simpa using he.sourceFromToken []
  have hread : Clause.read (keyword "ON") (keyword "UPDATE" :: (es ++ rest)) =
      (.onUpdate e, 1 + es.length) := by
    simp +decide only [Clause.read, Bool.and_eq_true, hnext, hlength, false_and, if_true, if_false,
      List.drop_succ_cons, List.drop_zero, List.take_left, hself, ofUpdate, ha]
  rw [updateLexemes, List.cons_append, List.cons_append, ClausePhrase.readAll_cons hread,
    Nat.add_comm, List.drop_succ_cons, List.drop_left]

/-- An update clause behind a value belongs to it. -/
theorem suffixesLength_update :
    suffixesLength (updateLexemes es ++ rest) = (updateLexemes es).length := by
  have hon : (keyword "ON").token.isWord "ON" = true := by decide
  have hupdate : (keyword "UPDATE").token.isOneOf ["UPDATE", "INSERT"] = true := by decide
  have hvalue := he.valueLength? rest (FreeClause.gap_ne_nil hb)
  have hfirst : suffixLength? (keyword "ON" :: keyword "UPDATE" :: (es ++ rest)) =
      some (es.length + 1 + 1) := by
    rw [suffixLength?, if_neg (by simp [keyword])]
    simp only [hon, hupdate, hvalue, List.head?_cons, Option.any_some, Bool.and_self, if_true,
      List.drop_one, List.tail_cons, Option.map_some]
  rw [updateLexemes, List.cons_append, List.cons_append, suffixesLength, hfirst]
  simp [FreeClause.suffixesLength_of_begins hb]

end Clause

namespace Fragment

open DefaultValue Clause

/-- A column that is required, with its default. -/
def stamp (counting : Bool) (default : Option Text) : Column :=
  { name := "c", typeName := "TIMESTAMP", nullable := false, autoIncrement := counting,
    defaultValue := default }

/-- The update clause stands directly behind the default. -/
def updateAdjacent (h e : Text) : Text :=
  "c TIMESTAMP".toList ++
    (" DEFAULT ".toList ++ h ++ (" ON UPDATE ".toList ++ e ++ " NOT NULL".toList))

/-- The update clause stands behind another clause. -/
def updateBehind (h e : Text) : Text :=
  "c TIMESTAMP".toList ++
    (" DEFAULT ".toList ++ h ++ (" NOT NULL".toList ++ (" ON UPDATE ".toList ++ e)))

/-- The update clause stands ahead of the default. -/
def updateAhead (h e : Text) : Text :=
  "c TIMESTAMP".toList ++
    (" ON UPDATE ".toList ++ e ++ (" NOT NULL".toList ++ (" DEFAULT ".toList ++ h)))

variable {h e : Text} {ls es : List Lexeme}

def timestamp : TypeSpelling := { base := "TIMESTAMP", words := [keyword "TIMESTAMP"] }

private theorem wellFormed_timestamp : timestamp.WellFormed where
  words := .word isGap_space ⟨by decide, rfl, rfl⟩
  recognized := by decide
  arguments := .absent
  zone := .absent
  zoned := fun hne => absurd rfl hne

private theorem draft_timestamp : Column.draft "c" timestamp.typeName timestamp.length =
    { column := { name := "c", typeName := "TIMESTAMP" } } := by
  decide

/-- The column is read from the clauses behind its type. -/
theorem read_timestamp {t : Text} {rest : List Lexeme}
    (hk : rest.head? = some (keyword "DEFAULT") ∨ rest.head? = some (keyword "ON"))
    (ha : Apart rest) (ht : "c TIMESTAMP".toList ++ source rest = t) :
    let d := ((Clause.readAll rest).foldl Draft.add
      { column := { name := "c", typeName := "TIMESTAMP" } }).finish
    read (tokenize t) =
      { result := .ok (.column d.column d.inlinePrimary), problems := d.problems } := by
  have hends : TypeSpelling.Ends rest := by
    intro l hl
    rcases hk with hk | hk
    all_goals
      obtain rfl := Option.some.inj (hk.symm.trans hl)
      exact ⟨by simp [keyword], by decide⟩
  have hname : IsWord "c".toList := by decide
  have hread := read_spelled wellFormed_timestamp hends ha hname (by decide)
  have hsource : "c".toList ++ source (timestamp.lexemes ++ rest) = t := by
    rw [← ht, source_append, ← List.append_assoc]
    congr 1
  rwa [draft_timestamp, hsource] at hread

/-- What the default is set to, in a column that is required. -/
theorem stamp_setDefault (raw : Text) :
    { Draft.setDefault { name := "c", typeName := "TIMESTAMP" } raw with nullable := false } =
      if Text.holds "nextval" (Text.lower raw) then stamp true none
      else stamp false (normalize raw) := by
  unfold Draft.setDefault
  split <;> rfl

/-- An update clause that stands alone joins the normal form of the default. -/
theorem withUpdate_stamp (v e : Text) :
    Draft.withUpdate (stamp false (some v)) e = stamp false (joined v e) := by
  unfold Draft.withUpdate joined updated
  simp only [stamp, List.append_assoc]
  split <;> rfl

private theorem finish_updateAdjacent (c : Column) (raw : Text) :
    ([Clause.defaultValue raw, .notNull].foldl Draft.add { column := c }).finish =
      { column := { Draft.setDefault c raw with nullable := false } } :=
  rfl

theorem finish_updateBehind (c : Column) (raw e : Text) :
    ([Clause.defaultValue raw, .notNull, .onUpdate e].foldl Draft.add { column := c }).finish =
      { column := Draft.withUpdate { Draft.setDefault c raw with nullable := false } e
        onUpdate := some e } :=
  rfl

/-- The clauses may as well be read the other way round. -/
theorem finish_updateAhead (c : Column) (raw e : Text) :
    ([Clause.onUpdate e, .notNull, .defaultValue raw].foldl Draft.add { column := c }).finish =
      ([Clause.defaultValue raw, .notNull, .onUpdate e].foldl Draft.add { column := c }).finish := by
  have hdefault : Draft.setDefault { c with nullable := false } raw =
      { Draft.setDefault c raw with nullable := false } := by
    unfold Draft.setDefault
    split <;> rfl
  rw [finish_updateBehind, ← hdefault]
  rfl

/-- The default is read with its update clause. -/
theorem read_updateAdjacent (hh : Reads h ls) (he : Reads e es) :
    read (tokenize (updateAdjacent h e)) =
      { result := .ok (.column
          (if Text.holds "nextval" (Text.lower (updated h e)) then stamp true none
            else stamp false (normalize (updated h e))) false) } := by
  have hsource : "c TIMESTAMP".toList ++
      source (defaultLexemes ls ++ (updateLexemes es ++ requiredLexemes)) = updateAdjacent h e := by
    unfold updateAdjacent
    rw [source_append, source_append, source_defaultLexemes hh, source_updateLexemes he,
      source_requiredLexemes]
  have hbegins : FreeClause.Begins requiredLexemes := begins_required []
  have hsuffix := suffixesLength_update he hbegins
  have hgap : ∀ l ∈ (updateLexemes es ++ requiredLexemes).head?, l.gap ≠ [] := by
    simp [updateLexemes, keyword]
  have hrequired := readAll_required []
  rw [List.append_nil, Clause.readAll] at hrequired
  have hclauses : Clause.readAll (defaultLexemes ls ++ (updateLexemes es ++ requiredLexemes)) =
      [.defaultValue (updated h e), .notNull] := by
    rw [readAll_default hh hgap, hsuffix, List.take_left, List.drop_left, source_updateLexemes he,
      hrequired, updated]
  have hapart := (apart_defaultLexemes hh).append
    ((apart_updateLexemes he).append apart_requiredLexemes)
  have hread := read_timestamp (.inl rfl) hapart hsource
  rw [hclauses, finish_updateAdjacent, stamp_setDefault] at hread
  exact hread

section
variable (hh : Reads h ls) (he : Reads e es)
  (ha : Text.oneOf ["CASCADE", "RESTRICT", "SET", "NO"] e = false)
  (hn : Text.holds "nextval" (Text.lower h) = false) {v : Text} (hv : normalize h = some v)
include hh he ha hn hv

private theorem read_updateBehind :
    read (tokenize (updateBehind h e)) =
      { result := .ok (.column (stamp false (joined v e)) false) } := by
  have hsource : "c TIMESTAMP".toList ++
      source (defaultLexemes ls ++ (requiredLexemes ++ updateLexemes es)) = updateBehind h e := by
    unfold updateBehind
    rw [source_append, source_append, source_defaultLexemes hh, source_updateLexemes he,
      source_requiredLexemes]
  have hbegins := begins_required (updateLexemes es)
  have hupdate := readAll_update he FreeClause.begins_nil ha
  rw [List.append_nil, Clause.readAll] at hupdate
  have hclauses : Clause.readAll (defaultLexemes ls ++ (requiredLexemes ++ updateLexemes es)) =
      [.defaultValue h, .notNull, .onUpdate e] := by
    rw [readAll_default hh (FreeClause.gap_ne_nil hbegins),
      FreeClause.suffixesLength_of_begins hbegins, List.take_zero, List.drop_zero,
      readAll_required, hupdate, source_nil, List.append_nil]
  have hapart := (apart_defaultLexemes hh).append
    (apart_requiredLexemes.append (apart_updateLexemes he))
  have hread := read_timestamp (.inl rfl) hapart hsource
  rw [hclauses, finish_updateBehind, stamp_setDefault, hn, hv] at hread
  rw [← withUpdate_stamp]
  exact hread

private theorem read_updateAhead :
    read (tokenize (updateAhead h e)) =
      { result := .ok (.column (stamp false (joined v e)) false) } := by
  have hsource : "c TIMESTAMP".toList ++
      source (updateLexemes es ++ (requiredLexemes ++ defaultLexemes ls)) = updateAhead h e := by
    unfold updateAhead
    rw [source_append, source_append, source_defaultLexemes hh, source_updateLexemes he,
      source_requiredLexemes]
  have hdefault := readAll_default hh (FreeClause.gap_ne_nil FreeClause.begins_nil)
  rw [FreeClause.suffixesLength_of_begins FreeClause.begins_nil, List.take_zero, List.drop_zero,
    source_nil, List.append_nil, List.append_nil, Clause.readAll] at hdefault
  have hclauses : Clause.readAll (updateLexemes es ++ (requiredLexemes ++ defaultLexemes ls)) =
      [.onUpdate e, .notNull, .defaultValue h] := by
    rw [readAll_update he (begins_required _) ha, readAll_required, hdefault]
  have hapart := (apart_updateLexemes he).append
    (apart_requiredLexemes.append (apart_defaultLexemes hh))
  have hread := read_timestamp (.inr rfl) hapart hsource
  rw [hclauses, finish_updateAhead, finish_updateBehind, stamp_setDefault, hn, hv] at hread
  rw [← withUpdate_stamp]
  exact hread

end

/-- An update clause apart from the default gives the same column wherever it stands. Directly
behind the default it gives the same default exactly if the event mentions no next value of a
sequence and the normal form of the default agrees with the default. -/
theorem read_update_iff (hh : IsValue h) (hn : Text.holds "nextval" (Text.lower h) = false)
    (he : IsEvent e) :
    ∃ v a d, normalize h = some v ∧
      read (tokenize (updateAdjacent h e)) = { result := .ok (.column (stamp a d) false) } ∧
      read (tokenize (updateBehind h e)) =
        { result := .ok (.column (stamp false (joined v e)) false) } ∧
      read (tokenize (updateAhead h e)) =
        { result := .ok (.column (stamp false (joined v e)) false) } ∧
      (d = joined v e ↔ Text.holds "nextval" (Text.lower (updated h e)) = false ∧
        Agrees (Text.collapsed h) (Text.collapsed e) v) := by
  obtain ⟨ls, hls⟩ := hh.exists_reads
  obtain ⟨es, hes⟩ := he.unquoted.exists_reads
  have hlast := fun c hc => (he.unquoted.getLast? c hc).2
  obtain ⟨v, hv, hjoined, hiff⟩ := normalize_updated_iff hh.joinable he.unquoted.joinable.solid hlast
  have hbehind := read_updateBehind hls hes he.no_action hn hv
  have hahead := read_updateAhead hls hes he.no_action hn hv
  have hadjacent := read_updateAdjacent hls hes
  cases hnext : Text.holds "nextval" (Text.lower (updated h e)) with
  | true =>
    rw [hnext] at hadjacent
    refine ⟨v, true, none, hv, hadjacent, hbehind, hahead, iff_of_false hjoined.symm ?_⟩
    exact fun h => absurd h.1 (by simp)
  | false =>
    rw [hnext] at hadjacent
    refine ⟨v, false, _, hv, hadjacent, hbehind, hahead, ?_⟩
    rw [hiff, and_iff_right rfl]

/-- A call of the clock is in capitals in each place. -/
theorem read_update_iff_clock :
    IsValue "current_timestamp".toList ∧
    Text.holds "nextval" (Text.lower "current_timestamp") = false ∧
    IsEvent "now()".toList ∧
    ∃ v a d, normalize "current_timestamp" = some v ∧
      read (tokenize (updateAdjacent "current_timestamp" "now()")) =
        { result := .ok (.column (stamp a d) false) } ∧
      read (tokenize (updateBehind "current_timestamp" "now()")) =
        { result := .ok (.column (stamp false (joined v "now()")) false) } ∧
      read (tokenize (updateAhead "current_timestamp" "now()")) =
        { result := .ok (.column (stamp false (joined v "now()")) false) } ∧
      (d = joined v "now()" ↔
        Text.holds "nextval" (Text.lower (updated "current_timestamp" "now()")) = false ∧
        Agrees (Text.collapsed "current_timestamp") (Text.collapsed "now()") v) := by
  have hvalue : IsValue "current_timestamp".toList :=
    .unquoted ⟨.word "current_timestamp", ⟨by decide, by decide⟩, rfl, rfl⟩
  have hevent : IsEvent "now()".toList :=
    ⟨⟨.call "now" [], ⟨⟨by decide, by decide⟩, by simp⟩, rfl, by decide⟩, by decide⟩
  have hnext : Text.holds "nextval" (Text.lower "current_timestamp") = false := by decide +kernel
  exact ⟨hvalue, hnext, hevent, read_update_iff hvalue hnext hevent⟩

/-- The number is put in quotes before the update clause joins it, and is left without them after. -/
theorem read_update_number :
    (read (tokenize (updateAdjacent "5" "NOW()"))).result =
        .ok (.column (stamp false (some "5 ON UPDATE NOW()".toList)) false) ∧
      (read (tokenize (updateBehind "5" "NOW()"))).result =
        .ok (.column (stamp false (some "'5' ON UPDATE NOW()".toList)) false) := by
  decide +kernel

end Fragment

end TableDialects
