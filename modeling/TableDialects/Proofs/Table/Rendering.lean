import TableDialects.Proofs.Statement.Scanning
import TableDialects.Proofs.Table.Legible

/-!
# Rendered definitions

With line feeds for its line endings, a definition is the source of its lexemes and a semicolon. The
definitions of a script are found again as its statements.
-/
namespace TableDialects

open Lexeme

/-- The layout with plain line feeds. -/
def Layout.plain (l : Layout) : Layout := { l with lineEnding := .lf }

namespace Statement

/-- Line breaks turn `u` into `v`, whatever follows. -/
def Feeds (u v : Text) : Prop := ∀ r, lineFeeds (u ++ r) = v ++ lineFeeds r

private theorem feeds_of_not_mem {u : Text} (h : '\r' ∉ u) : Feeds u u := by
  intro r
  induction u with
  | nil => rfl
  | cons c u ih =>
    have hc : c ≠ '\r' := by
      rintro rfl
      exact h List.mem_cons_self
    rw [List.cons_append, lineFeeds, ih fun hm => h (List.mem_cons_of_mem c hm)]
    · rfl
    · exact fun _ he => absurd he hc
    · exact hc

private theorem feeds_lineEnding (e : LineEnding) : Feeds e.text LineEnding.lf.text := by
  intro r
  cases e <;> rfl

theorem Feeds.append {u u' v v' : Text} (hu : Feeds u u') (hv : Feeds v v') :
    Feeds (u ++ v) (u' ++ v') := by
  intro r
  rw [List.append_assoc, hu, hv, List.append_assoc]

private theorem feeds_join {α : Type} {s s' : Text} (hs : Feeds s s') {f g : α → Text} {as : List α}
    (h : ∀ a ∈ as, Feeds (f a) (g a)) :
    Feeds (Text.join s (as.map f)) (Text.join s' (as.map g)) := by
  induction as with
  | nil => exact fun _ => rfl
  | cons a as ih =>
    have ha := h a List.mem_cons_self
    cases as with
    | nil => simpa [Text.join] using ha
    | cons b as =>
      simp only [List.map_cons, Text.join_cons_cons]
      exact (ha.append hs).append (ih fun c hc => h c (List.mem_cons_of_mem a hc))

end Statement

namespace Table

open Statement

section
variable {d : Dialect} {l : Layout} {t : Table}

private theorem Legible.not_mem_renderLines (h : t.Legible d) :
    ∀ line ∈ t.renderLines d, '\r' ∉ line := by
  intro line hline
  rcases List.mem_append.1 hline with hline | hline
  · obtain ⟨c, hc, rfl⟩ := List.mem_map.1 hline
    have hl := h.columns c hc
    rw [← Column.source_phrase hl]
    have hi := Dialect.not_mem_identifier hl.name
    have hs := ColumnPhrase.not_mem_source (Column.wellFormed_phrase hl (t.isPrimary c.name))
    simp [hi, hs]
  · split at hline
    · simp at hline
    · obtain rfl := List.mem_singleton.1 hline
      have hk : '\r' ∉ "PRIMARY KEY (".toList := by decide
      have hj : '\r' ∉ Text.join ", " (t.compositeKey.map d.identifier) := by
        refine TypePhrase.not_mem_join (by decide) fun u hu => ?_
        obtain ⟨n, hn, rfl⟩ := List.mem_map.1 hu
        exact Dialect.not_mem_identifier (h.canName_key n hn)
      simp only [List.mem_append, List.mem_singleton, not_or]
      exact ⟨⟨hk, hj⟩, by decide⟩

theorem baseName_of_unqualified (h : '.' ∉ t.name) : t.baseName = t.name := by
  have htake : (t.name.reverse ++ []).takeWhile (· != '.') = t.name.reverse ++ [] := by
    refine List.takeWhile_append_of_pos fun c hc => ?_
    have hne : c ≠ '.' := by
      rintro rfl
      exact h (List.mem_reverse.1 hc)
    simpa using hne
  rw [List.append_nil] at htake
  rw [baseName, htake, List.reverse_reverse]

private theorem Legible.feeds_render (h : t.Legible d) (l : Layout) :
    Feeds (t.render d l) (t.render d l.plain) := by
  have heol := feeds_lineEnding l.lineEnding
  have hname : '\r' ∉ d.identifier t.baseName :=
    baseName_of_unqualified h.unqualified ▸ Dialect.not_mem_identifier h.name
  have hline : ∀ line ∈ t.renderLines d, Feeds (List.replicate l.indent ' ' ++ line)
      (List.replicate l.indent ' ' ++ line) := by
    refine fun line hm => feeds_of_not_mem ?_
    simp [h.not_mem_renderLines line hm]
  have hcreate : Feeds "CREATE TABLE ".toList "CREATE TABLE ".toList :=
    feeds_of_not_mem (by decide)
  have hopen : Feeds " (".toList " (".toList := feeds_of_not_mem (by decide)
  have hclose : Feeds ");".toList ");".toList := feeds_of_not_mem (by decide)
  have hcomma : Feeds [','] [','] := feeds_of_not_mem (by decide)
  exact (((((hcreate.append (feeds_of_not_mem hname)).append hopen).append heol).append
    (feeds_join (hcomma.append heol) hline)).append heol).append hclose

theorem lineFeeds_renderAll {ts : List Table} (h : ∀ t ∈ ts, t.Legible d) (l : Layout) :
    lineFeeds (renderAll d l ts) = renderAll d l.plain ts := by
  have heol := feeds_lineEnding l.lineEnding
  have hjoin := feeds_join (heol.append heol) (fun t ht => (h t ht).feeds_render l) []
  rw [List.append_nil] at hjoin
  exact hjoin.trans (List.append_nil _)

private theorem join_comma (s a : Text) (ts : List Text) :
    Text.join (',' :: s) (a :: ts) = Text.join [','] (a :: ts.map (s ++ ·)) := by
  induction ts generalizing a with
  | nil => simp [Text.join]
  | cons b ts ih =>
    rw [List.map_cons, Text.join_cons_cons, Text.join_cons_cons, ih b]
    cases ts with
    | nil => simp [Text.join]
    | cons c ts => simp [Text.join_cons_cons]

private theorem source_keyNames (names : List Text) :
    Text.join [','] (((keyNames d names).map fun n => [n]).map source) =
      Text.join ", " (names.map d.identifier) := by
  have hs : ", ".toList = [',', ' '] := by decide
  cases names with
  | nil => rfl
  | cons n ns =>
    rw [hs, List.map_cons, join_comma]
    simp [keyNames, Dialect.nameLexeme, Function.comp_def]

private theorem source_keyEntry (names : List Text) : source (keyEntry d l names) =
    lineGap l ++ ("PRIMARY KEY (".toList ++ Text.join ", " (names.map d.identifier) ++ [')']) := by
  have hk : "PRIMARY KEY (".toList = "PRIMARY".toList ++ ' ' :: ("KEY".toList ++ [' ', '(']) := by
    decide
  rw [keyEntry, source_cons, source_cons, source_group, source_keyNames, hk, keyword]
  simp

private theorem Legible.source_entriesOf (h : t.Legible d) :
    (entriesOf d l t).map source = (t.renderLines d).map (lineGap l ++ ·) := by
  have hcolumns : (t.columns.map (columnEntry d l t)).map source =
      (t.columns.map fun c => c.render d (t.isPrimary c.name)).map (lineGap l ++ ·) := by
    rw [List.map_map, List.map_map]
    refine List.map_congr_left fun c hc => ?_
    simp only [Function.comp_apply, columnEntry, source_cons,
      ← Column.source_phrase (h.columns c hc)]
    rfl
  rw [entriesOf, renderLines, List.map_append, List.map_append, hcolumns]
  split
  · rfl
  · rw [List.map_singleton, List.map_singleton, source_keyEntry]

private theorem render_plain (d : Dialect) (l : Layout) (t : Table) :
    t.render d l.plain =
      "CREATE TABLE ".toList ++ d.identifier t.baseName ++ " (".toList ++ ['\n'] ++
      Text.join [',', '\n'] ((t.renderLines d).map (List.replicate l.indent ' ' ++ ·)) ++ ['\n'] ++
      ");".toList := rfl

/-- A definition is the source of its lexemes, closed by a semicolon. -/
theorem Legible.source_lexemes (h : t.Legible d) (l : Layout) :
    source (lexemes d l t) ++ [';'] = t.render d l.plain := by
  have hcreate : "CREATE TABLE ".toList = "CREATE".toList ++ ' ' :: ("TABLE".toList ++ [' ']) := by
    decide
  have hopen : " (".toList = [' ', '('] := by decide
  have hclose : ");".toList = [')', ';'] := by decide
  have hne : t.renderLines d ≠ [] := by
    intro he
    rw [renderLines, List.append_eq_nil_iff, List.map_eq_nil_iff] at he
    exact h.ne_nil he.1
  have hjoin : Text.join [','] ((t.renderLines d).map (lineGap l ++ ·)) =
      '\n' :: Text.join [',', '\n'] ((t.renderLines d).map (List.replicate l.indent ' ' ++ ·)) := by
    obtain ⟨line, lines, hl⟩ := List.exists_cons_of_ne_nil hne
    rw [hl, List.map_cons, List.map_cons, join_comma ['\n'], List.map_map]
    cases lines with
    | nil => simp [Text.join, lineGap]
    | cons line' lines => simp [Text.join_cons_cons, lineGap, Function.comp_def]
  rw [render_plain, baseName_of_unqualified h.unqualified, hcreate, hopen, hclose, lexemes,
    source_cons, source_cons, source_cons, source_group, h.source_entriesOf, hjoin, keyword,
    Dialect.nameLexeme]
  generalize "CREATE".toList = create
  generalize "TABLE".toList = table
  simp

end

end Table

end TableDialects
