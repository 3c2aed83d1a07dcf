import TableDialects.Proofs.Statement.Inline
import TableDialects.Proofs.Table.Rendering

/-!
# Splitting rendered definitions

The splitter finds the definitions of a rendered script again. Every line of a definition is
ordinary: a quoted name begins no directive, and the line of a bare name holds three words.
-/
namespace TableDialects

open Lexeme

/-- A bare name is one word of its line. -/
theorem Lexeme.IsWord.words {w : Text} (h : IsWord w) :
    '\n' ∉ w ∧ Text.words w = [w] := by
  obtain ⟨c, cs, rfl, hc, hcs⟩ := h.exists_cons
  have hall := Token.continuesWord_of_mem hc hcs
  refine ⟨fun hm => absurd (hall _ hm) (by decide), ?_⟩
  exact Text.words_of_forall (by simp) fun e he => Token.isBlank_of_continuesWord (hall e he)

namespace Dialect

theorem nameToken_ne_punct (d : Dialect) (name : Text) {c : Char} :
    d.nameToken name ≠ .punct c := by
  unfold nameToken
  split <;> simp

private theorem exists_sqliteType (type : ColumnType) :
    ∃ w ∈ ["INTEGER", "NUMERIC", "REAL", "NCHAR", "NVARCHAR", "TEXT", "BLOB"],
      ∃ n, sqliteType type = sized w.toList n := by
  cases type with
  | char length => exact ⟨"NCHAR", by simp, length.map (·.toNat), rfl⟩
  | varchar length => exact ⟨"NVARCHAR", by simp, length.map (·.toNat), rfl⟩
  | enumeration values => exact ⟨"NVARCHAR", by simp, some _, rfl⟩
  | set values => exact ⟨"NVARCHAR", by simp, some _, rfl⟩
  | decimal precision scale => exact ⟨"NUMERIC", by simp, none, rfl⟩
  | money => exact ⟨"NUMERIC", by simp, none, rfl⟩
  | float => exact ⟨"REAL", by simp, none, rfl⟩
  | double => exact ⟨"REAL", by simp, none, rfl⟩
  | blob size => exact ⟨"BLOB", by simp, none, rfl⟩
  | binary length varying => exact ⟨"BLOB", by simp, none, rfl⟩
  | integer size width => exact ⟨"INTEGER", by simp, none, rfl⟩
  | boolean => exact ⟨"INTEGER", by simp, none, rfl⟩
  | bit length => exact ⟨"INTEGER", by simp, none, rfl⟩
  | year => exact ⟨"INTEGER", by simp, none, rfl⟩
  | _ => exact ⟨"TEXT", by simp, none, rfl⟩

/-- A type of SQLite has a word in the line of its column. -/
theorem words_sqliteType (type : ColumnType) :
    '\n' ∉ sqliteType type ∧ Text.words (sqliteType type) ≠ [] := by
  have hwords : ∀ w ∈ ["INTEGER", "NUMERIC", "REAL", "NCHAR", "NVARCHAR", "TEXT", "BLOB"],
      '\n' ∉ w.toList ∧ w.toList.head?.any (fun c => !Text.isBlank c) = true := by decide
  obtain ⟨w, hw, n, hn⟩ := exists_sqliteType type
  obtain ⟨hline, hhead⟩ := hwords w hw
  obtain ⟨c, hc, hblank⟩ := (Option.any_eq_true _ _).1 hhead
  obtain ⟨cs, hcs⟩ := List.head?_eq_some_iff.1 hc
  rw [Bool.not_eq_true'] at hblank
  rw [hn]
  generalize w.toList = u at hline hcs
  subst hcs
  cases n with
  | none =>
    obtain ⟨v, vs, hv⟩ := Text.words_cons hblank cs
    exact ⟨hline, by simp [sized, hv]⟩
  | some n =>
    have hnat : '\n' ∉ Text.ofNat n := fun hm =>
      absurd (Text.isDigit_of_mem_ofNat hm) (by decide)
    obtain ⟨v, vs, hv⟩ := Text.words_cons hblank (cs ++ '(' :: (Text.ofNat n ++ [')']))
    rw [List.mem_cons, not_or] at hline
    exact ⟨by simp [sized, hline, hnat], by simp [sized, hv]⟩

end Dialect

namespace Statement

section
variable {b r u : Text} {k : Token} {ls : List Lexeme}

/-- A line passes with the line break in front of it. -/
theorem passes_line (hb : ∀ c ∈ b, isSeparator c = true) (hbn : '\n' ∉ b)
    (hc : Clear (⟨'\n' :: b, u, k⟩ :: ls) r) (hk : k ≠ .punct ';') (hi : Inline ls)
    (hp : Passes ['\n'] (b ++ (u ++ (source ls ++ r)))) :
    Passes (source (⟨'\n' :: b, u, k⟩ :: ls)) r := by
  have hclear : Clear (⟨b, u, k⟩ :: ls) r := ⟨⟨hb, hc.1.starts, hc.1.written⟩, hc.2⟩
  have hinline : Inline (⟨b, u, k⟩ :: ls) := (Inline.singleton hbn hk).append hi
  have hline : source (⟨'\n' :: b, u, k⟩ :: ls) = ['\n'] ++ source (⟨b, u, k⟩ :: ls) := by
    simp [source_cons]
  rw [hline]
  refine Passes.append ?_ (passes_source hclear hinline)
  rw [source_cons]
  simpa using hp

/-- The line of a column of SQLite holds its name, its type and whether it may be null. -/
theorem passes_newline_words {name type w : Text} (hb : Text.blank b = true) (hbn : '\n' ∉ b)
    (hname : IsWord name) (htype : '\n' ∉ type) (hwords : Text.words type ≠ []) :
    Passes ['\n'] (b ++ (name ++ ' ' :: (type ++ ' ' :: 'N' :: w))) := by
  obtain ⟨hn, hw⟩ := hname.words
  have hfirst : firstLine (b ++ (name ++ ' ' :: (type ++ ' ' :: 'N' :: w))) =
      b ++ (name ++ ' ' :: (type ++ ' ' :: 'N' :: firstLine w)) := by
    have hlast : firstLine ([' ', 'N'] ++ w) = [' ', 'N'] ++ firstLine w :=
      firstLine_append (by decide) w
    have hspace : firstLine ([' '] ++ (type ++ ([' ', 'N'] ++ w))) =
        [' '] ++ firstLine (type ++ ([' ', 'N'] ++ w)) := firstLine_append (by decide) _
    rw [firstLine_append hbn, firstLine_append hn]
    refine congrArg (b ++ ·) (congrArg (name ++ ·) (hspace.trans ?_))
    rw [firstLine_append htype, hlast]
    rfl
  obtain ⟨v, vs, hv⟩ := Text.words_cons (c := 'N') (by decide) (firstLine w)
  obtain ⟨v', vs', hv'⟩ := List.exists_cons_of_ne_nil hwords
  have hlength :
      2 < (Text.words (b ++ (name ++ ' ' :: (type ++ ' ' :: 'N' :: firstLine w)))).length := by
    rw [Text.words_blank_append hb, Text.words_append_cons (by decide),
      Text.words_append_cons (by decide), hw, hv, hv']
    simp only [List.length_append, List.length_cons]
    omega
  obtain ⟨c, cs, rfl, hc, -⟩ := hname.exists_cons
  have hblank : Text.isBlank c = false :=
    Token.isBlank_of_continuesWord (Token.continuesWord_of_isWordStart hc)
  refine passes_newline (by simp) ?_
  rw [hfirst]
  refine ordinary hb hblank ?_ (directive?_of_length hlength)
  rintro ⟨rfl, -⟩
  exact absurd hc (by decide)

end

end Statement

namespace Table

open Statement

section
variable {d : Dialect} {l : Layout} {t : Table}

private theorem blank_indent (n : Nat) : Text.blank (List.replicate n ' ') = true := by
  refine List.all_eq_true.2 fun c hc => ?_
  obtain rfl := List.eq_of_mem_replicate hc
  rfl

theorem not_mem_indent (n : Nat) : '\n' ∉ List.replicate n ' ' := by
  intro hm
  exact absurd (List.eq_of_mem_replicate hm) (by decide)

private theorem isSeparator_indent (l : Layout) :
    ∀ c ∈ List.replicate l.indent ' ', isSeparator c = true :=
  fun c hc => isSeparator_lineGap l c (List.mem_cons_of_mem _ hc)

/-- What follows the type in SQLite and in PostgreSQL is whether the column may be null. -/
theorem exists_clauses {c : Column} (hd : d.family ≠ .mysql) (primary : Bool) :
    ∃ w, (c.phrase d primary).clausePhrases.flatMap ClausePhrase.text = ' ' :: 'N' :: w := by
  have hu : (c.phrase d primary).unsigned = false := by
    have hs : d.supportsUnsigned = false := by
      cases d <;> first | rfl | exact absurd rfl hd
    change (c.unsigned && d.supportsUnsigned && c.type?.any (·.isNumeric)) = false
    rw [hs, Bool.and_false, Bool.false_and]
  have hn : ∃ w, (c.phrase d primary).nullClause.text = ' ' :: 'N' :: w := by
    unfold ColumnPhrase.nullClause
    split
    · exact ⟨"OT NULL PRIMARY KEY".toList, by decide⟩
    · split
      · exact ⟨"OT NULL".toList, by decide⟩
      · exact ⟨"ULL".toList, by decide⟩
  obtain ⟨w, hw⟩ := hn
  rw [ColumnPhrase.clausePhrases, hu, if_neg Bool.false_ne_true, List.nil_append,
    List.flatMap_cons, hw]
  exact ⟨_, rfl⟩

/-- The line of a column is ordinary. -/
theorem passes_newline_column {c : Column} (h : c.Legible d) (primary : Bool) (r : Text) :
    Passes ['\n'] (List.replicate l.indent ' ' ++
      (d.identifier c.name ++ (source (c.phrase d primary).afterName ++ r))) := by
  have hblank := blank_indent l.indent
  have hline := not_mem_indent l.indent
  have hname := h.name
  cases hd : d.family with
  | mysql =>
    rw [Dialect.identifier, hd]
    exact passes_newline_of_head hline hblank (by decide) (by decide) (by decide)
  | postgres =>
    rw [Dialect.identifier, hd]
    exact passes_newline_of_head hline hblank (by decide) (by decide) (by decide)
  | sqlite =>
    rw [Dialect.CanName, hd] at hname
    obtain ⟨type, ht⟩ := h.exists_type
    obtain ⟨htype, hwords⟩ := Dialect.words_sqliteType type
    have hother : d.family ≠ .mysql := by simp [hd]
    obtain ⟨w, hw⟩ := @exists_clauses d c hother primary
    have htext : (c.phrase d primary).type.text = Dialect.sqliteType type := by
      simp only [Column.phrase, ht, Option.getD_some, Dialect.text_phrase, Dialect.typeName, hd]
    rw [Dialect.identifier, hd, ColumnPhrase.source_afterName (Column.wellFormed_phrase h primary),
      htext, hw]
    have hp :=
      passes_newline_words (w := w ++ r) hblank hline (isWord_of_tokenize hname) htype hwords
    simpa using hp

private theorem passes_columnEntry {c : Column} (h : c.Legible d) (t : Table) {r : Text}
    (hr : Token.breaks r = true) : Passes (source (columnEntry d l t c)) r := by
  have hclear := (clear_columnEntry (l := l) h t).congr hr
  exact passes_line (isSeparator_indent l) (not_mem_indent l.indent) hclear
    (d.nameToken_ne_punct c.name) (c.phrase d (t.isPrimary c.name)).inline_afterName
    (passes_newline_column h _ r)

private theorem inline_keyNames (names : List Text) :
    ∀ e ∈ (keyNames d names).map fun n => [n], Inline e := by
  intro e he
  obtain ⟨n, hn, rfl⟩ := List.mem_map.1 he
  cases names with
  | nil => simp [keyNames] at hn
  | cons m ms =>
    rcases List.mem_cons.1 hn with rfl | hn
    · exact .singleton (by simp [Dialect.nameLexeme]) (d.nameToken_ne_punct m)
    · obtain ⟨k, -, rfl⟩ := List.mem_map.1 hn
      exact .singleton (by simp [Dialect.nameLexeme]) (d.nameToken_ne_punct k)

private theorem passes_keyEntry {names : List Text} (h : ∀ n ∈ names, d.CanName n) {r : Text}
    (hr : Token.breaks r = true) : Passes (source (keyEntry d l names)) r := by
  have hclear := (clear_keyEntry (l := l) h).congr hr
  have hinline : Inline (keyword "KEY" :: group [' '] ((keyNames d names).map fun n => [n]) []) :=
    (Inline.keywords ["KEY"]).append (.group (by simp) (by simp) (inline_keyNames names))
  have hp : "PRIMARY".toList = 'P' :: "RIMARY".toList := by decide
  refine passes_line (isSeparator_indent l) (not_mem_indent l.indent) hclear (by simp) hinline ?_
  rw [hp]
  exact passes_newline_of_head (not_mem_indent l.indent) (blank_indent l.indent) (by decide)
    (by decide) (by decide)

private theorem Legible.passes_entriesOf (h : t.Legible d) : ∀ e ∈ entriesOf d l t, ∀ r,
    Token.breaks r = true → Passes (source e) r := by
  intro e he r hr
  rcases List.mem_append.1 he with he | he
  · obtain ⟨c, hc, rfl⟩ := List.mem_map.1 he
    exact passes_columnEntry (h.columns c hc) t hr
  · split at he
    · simp at he
    · obtain rfl := List.mem_singleton.1 he
      exact passes_keyEntry h.canName_key hr

private theorem passes_entries {es : List (List Lexeme)} {r : Text} (hr : Token.breaks r = true)
    (h : ∀ e ∈ es, ∀ r, Token.breaks r = true → Passes (source e) r) :
    Passes (source (entries es)) r := by
  induction es with
  | nil => exact passes_nil
  | cons e es ih =>
    have he := h e List.mem_cons_self
    cases es with
    | nil => simpa [entries] using he r hr
    | cons f es =>
      have hcomma : ∀ v : Text, Passes [','] v := fun _ =>
        passes_of_all (by decide) (by decide)
      have hrest := ih fun g hg => h g (List.mem_cons_of_mem e hg)
      rw [entries_cons_cons, source_append, source_cons]
      exact (he _ (by simp [comma, Token.breaks, Token.isBreak])).append
        ((hcomma _).append hrest)

/-- A definition passes up to its semicolon. -/
theorem Legible.passes_lexemes (h : t.Legible d) (l : Layout) (r : Text) :
    Passes (source (lexemes d l t)) (';' :: r) := by
  let header : List Lexeme :=
    [⟨[], "CREATE".toList, .word "CREATE"⟩, keyword "TABLE", d.nameLexeme [' '] t.name]
  have happ : lexemes d l t = header ++ group [' '] (entriesOf d l t) ['\n'] := rfl
  have hgroup : source (group [' '] (entriesOf d l t) ['\n']) =
      [' ', '('] ++ (source (entries (entriesOf d l t)) ++ (['\n'] ++ [')'])) := by
    simp [group]
  have hheader : Inline header :=
    (Inline.singleton (by simp) (by simp)).append ((Inline.keywords ["TABLE"]).append
      (.singleton (by simp [Dialect.nameLexeme]) (d.nameToken_ne_punct t.name)))
  have hclear := (clear_append.1 (happ ▸ h.clear_lexemes (l := l))).1
  have hclose : Passes ['\n'] ([')'] ++ ';' :: r) :=
    passes_newline_of_head (b := []) (by simp) rfl (by decide) (by decide) (by decide)
  rw [happ, source_append, hgroup]
  refine (passes_source (hclear.congr rfl) hheader).append ?_
  refine (passes_of_all (by decide) (by decide)).append ?_
  refine (passes_entries rfl h.passes_entriesOf).append ?_
  exact hclose.append (passes_of_all (by decide) (by decide))

/-- A definition is solid: it begins with a capital and ends with a parenthesis. -/
theorem solid_lexemes (d : Dialect) (l : Layout) (t : Table) :
    Text.Solid (source (lexemes d l t)) := by
  have hopen : Text.Solid "CREATE".toList :=
    ⟨by decide, by simpa using by decide, by simpa using by decide⟩
  have hclose : Text.Solid [')'] := ⟨by decide, by simpa using by decide, by simpa using by decide⟩
  have hgroup : source (group [' '] (entriesOf d l t) ['\n']) =
      [' ', '('] ++ (source (entries (entriesOf d l t)) ++ ['\n']) ++ [')'] := by
    simp [group]
  have happ : lexemes d l t = ⟨[], "CREATE".toList, .word "CREATE"⟩ ::
      ([keyword "TABLE", d.nameLexeme [' '] t.name] ++ group [' '] (entriesOf d l t) ['\n']) := rfl
  have hsolid := hopen.append (source [keyword "TABLE", d.nameLexeme [' '] t.name] ++
    ([' ', '('] ++ (source (entries (entriesOf d l t)) ++ ['\n']))) hclose
  rw [happ, source_cons, source_append, hgroup, List.nil_append]
  simpa only [List.append_assoc] using hsolid

/-- The statement that a definition is. -/
def statement (d : Dialect) (l : Layout) (t : Table) : Statement :=
  ⟨source (lexemes d l t), semicolon⟩

/-- A definition is a statement, whatever follows its semicolon. -/
theorem Legible.resume_lexemes (h : t.Legible d) (l : Layout) (r : Text) :
    resume semicolon [] none ('\n' :: (source (lexemes d l t) ++ ';' :: r)) =
      statement d l t :: resume semicolon [] none r := by
  have hsolid := solid_lexemes d l t
  have hnewline : Passes ['\n'] (source (lexemes d l t) ++ ';' :: r) := by
    have hcreate : "CREATE".toList = 'C' :: "REATE".toList := by decide
    rw [lexemes, source_cons, List.nil_append, hcreate]
    exact passes_newline_of_head (b := []) (by simp) rfl (by decide) (by decide) (by decide)
  have hclosed : closed semicolon (['\n'] ++ source (lexemes d l t)) = [statement d l t] := by
    rw [closed_blank_append _ _ (by decide), closed, hsolid.blank, hsolid.trim]
    rfl
  have hpass := hnewline.append (h.passes_lexemes l r) []
  rw [List.append_assoc, List.nil_append] at hpass
  rw [← List.singleton_append, hpass, resume_semicolon, hclosed]
  rfl

/-- A further line break makes no difference. -/
theorem resume_newline_newline (r : Text) :
    resume semicolon [] none ('\n' :: '\n' :: r) = resume semicolon [] none ('\n' :: r) := by
  have hblank := @ofLines_blank_line semicolon [] r [] (by simp) rfl
  rw [resume_newline, resume_newline]
  exact hblank

private theorem resume_renderAll {ts : List Table} (h : ∀ t ∈ ts, t.Legible d) (l : Layout) :
    resume semicolon [] none ('\n' :: renderAll d l.plain ts) = ts.map (statement d l) := by
  induction ts with
  | nil =>
    rw [resume_newline]
    rfl
  | cons t ts ih =>
    have ht := h t List.mem_cons_self
    have hrest := ih fun u hu => h u (List.mem_cons_of_mem t hu)
    cases ts with
    | nil =>
      have hone : renderAll d l.plain [t] = source (lexemes d l t) ++ [';'] := by
        rw [ht.source_lexemes l]
        simp [renderAll, Text.join]
      rw [hone, ht.resume_lexemes, resume_nil]
      rfl
    | cons u ts =>
      have hmore : renderAll d l.plain (t :: u :: ts) =
          source (lexemes d l t) ++ ';' :: '\n' :: '\n' :: renderAll d l.plain (u :: ts) := by
        have hjoin : renderAll d l.plain (t :: u :: ts) = t.render d l.plain ++ ['\n', '\n'] ++
            renderAll d l.plain (u :: ts) := Text.join_cons_cons _ _ _ _
        rw [hjoin, ← ht.source_lexemes l]
        simp
      rw [hmore, ht.resume_lexemes, resume_newline_newline, hrest]
      rfl

/-- The statements of a rendered script are its definitions. -/
theorem split_renderAll {ts : List Table} (h : ∀ t ∈ ts, t.Legible d) (l : Layout) :
    split (renderAll d l ts) = ts.map (statement d l) := by
  rw [split_eq, lineFeeds_renderAll h, resume_renderAll h]

end

end Table

end TableDialects
