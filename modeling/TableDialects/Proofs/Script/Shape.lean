import TableDialects.Proofs.Report.Outcomes
import TableDialects.Proofs.Script.LineBreak
import TableDialects.Proofs.Script.Statement
import TableDialects.Proofs.Script.Table
import Mathlib.Data.List.Chain

/-!
# Tables of prepared scripts

Preparation looks at the characters of a script, the parser at its lexemes. Where both see the same
names, comments and phrases, a script defines the same tables before and after preparation, as far
as names and types go.
-/
namespace TableDialects

namespace Lexeme

/-- Neither do a name between backticks and a word touch nor a slash and a star. -/
structure Neighbours (l m : Lexeme) : Prop where
  behind_tick : m.gap = [] → l.text.head? = some '\x60' →
    m.text.head?.any Token.continuesWord = false
  before_tick : m.gap = [] → l.text.getLast?.any Token.continuesWord = true →
    m.text.head? ≠ some '\x60'
  block : m.gap = [] → l.token = .punct '/' → m.token ≠ .punct '*'

instance : DecidableRel Neighbours := fun l m =>
  decidable_of_iff
    ((m.gap = [] → l.text.head? = some '\x60' → m.text.head?.any Token.continuesWord = false) ∧
      (m.gap = [] → l.text.getLast?.any Token.continuesWord = true →
        m.text.head? ≠ some '\x60') ∧
      (m.gap = [] → l.token = .punct '/' → m.token ≠ .punct '*'))
    ⟨fun ⟨hb, ht, hs⟩ => ⟨hb, ht, hs⟩, fun ⟨hb, ht, hs⟩ => ⟨hb, ht, hs⟩⟩

section
variable {l : Lexeme} {ls : List Lexeme} {g t : Text} {c : Char} {cs : Text}

/-- A tidy source begins with the text of its first lexeme or with a character of a gap. -/
theorem Tidy.head (h : Tidy ls g) :
    (∃ m ms, ls = m :: ms ∧ m.gap = [] ∧ (source ls ++ g).head? = m.text.head?) ∨
      (source ls ++ g).head?.any Token.continuesWord = false ∧
        (source ls ++ g).head? ≠ some '\x60' ∧ (source ls ++ g).head? ≠ some '*' := by
  have hgap : ∀ {atEnd : Bool} {u : Text}, Gap atEnd u → u ≠ [] → ∀ v : Text,
      (u ++ v).head?.any Token.continuesWord = false ∧ (u ++ v).head? ≠ some '\x60' ∧
        (u ++ v).head? ≠ some '*' := by
    intro atEnd u hu hne v
    rcases hu.head with rfl | ⟨c, w, rfl, hc⟩
    · exact absurd rfl hne
    · simp only [isSeparator, Bool.or_eq_true, beq_iff_eq] at hc
      rcases hc with (((rfl | rfl) | rfl) | rfl) | rfl | rfl
      all_goals exact ⟨by rw [List.cons_append, List.head?_cons]; decide, by simp, by simp⟩
  cases ls with
  | nil =>
    right
    by_cases hne : g = []
    · simp [hne]
    · simpa using hgap h.1 hne []
  | cons m ms =>
    by_cases hne : m.gap = []
    · obtain ⟨c, t, he, -⟩ := h.2.1.written.read
      exact .inl ⟨m, ms, rfl, hne, by simp [hne, he]⟩
    · right
      have := hgap h.1.gap hne (m.text ++ source ms ++ g)
      simpa using this

/-- What a lexeme stands in front of begins with a neighbour, or a gap stands between the two. -/
theorem Tidy.exists_neighbour (h : Tidy ls g) (hnext : List.IsChain Neighbours (l :: ls)) :
    (∃ m : Lexeme, (source ls ++ g).head? = m.text.head? ∧
        (m.text.head? = some '*' → m.token = .punct '*') ∧ m.gap = [] ∧ Neighbours l m) ∨
      (source ls ++ g).head?.any Token.continuesWord = false ∧
        (source ls ++ g).head? ≠ some '\x60' ∧ (source ls ++ g).head? ≠ some '*' := by
  rcases h.head with ⟨m, ms, rfl, hgap, he⟩ | hfirst
  · left
    refine ⟨m, he, fun hstar => ?_, hgap, (List.isChain_cons_cons.1 hnext).1⟩
    obtain ⟨u, hu⟩ := List.head?_eq_some_iff.1 hstar
    exact (Token.Written.eq_punct (hu ▸ h.2.1.written) (by decide) (by decide)).1
  · exact .inr hfirst

private theorem startsToken_of_skipLength (h : skipLength (c :: cs) = 0) (hr : '\r' ∉ cs)
    (hb : c = '/' → cs.head? ≠ some '*') : startsToken (c :: cs) = true := by
  have hs := isSeparator_of_skipLength h
  have hd : c = '-' → cs.head? ≠ some '-' := by
    rintro rfl hd
    obtain ⟨u, rfl⟩ := List.head?_eq_some_iff.1 hd
    have hu : '\r' ∉ u := fun hm => hr (List.mem_cons_of_mem _ hm)
    simp [skipLength, lineLength?_eq hu] at h
  simp only [startsToken, hs, Bool.not_false, Bool.true_and, Bool.and_eq_true, Bool.not_eq_true',
    Bool.and_eq_false_imp, beq_eq_false_iff_ne, beq_iff_eq]
  exact ⟨hd, hb⟩

/-- A lexeme that is read off the front of a tidy source is read as it stands there. -/
private theorem Tidy.meets {l : Lexeme} (h : Tidy ls g)
    (hnext : List.IsChain Neighbours (l :: ls))
    (hwritten : Token.Written (source ls ++ g) l.token l.text)
    (hskip : skipLength (l.text ++ (source ls ++ g)) = 0)
    (hr : '\r' ∉ l.text ++ (source ls ++ g)) : Meets l (source ls ++ g) := by
  have hhead := h.exists_neighbour hnext
  refine ⟨?_, hwritten, fun ht => ?_, fun ht => ?_⟩
  · obtain ⟨c, cs, he, hread⟩ := hwritten.read
    rw [he, List.cons_append] at hskip hr ⊢
    refine startsToken_of_skipLength hskip (fun hm => hr (List.mem_cons_of_mem c hm)) ?_
    rintro rfl hstar
    -- a slash is a lexeme of its own, and the next would begin with a star
    obtain rfl : cs = [] := by
      have hmark := text_read_mark (.inr rfl) (cs ++ (source ls ++ g))
      rw [hread, he] at hmark
      simpa using hmark
    have hslash := (Token.Written.eq_punct (he ▸ hwritten) (by decide) (by decide)).1
    rcases hhead with ⟨m, hm, htoken, hgap, hnear⟩ | ⟨-, -, hne⟩
    · exact hnear.block hgap hslash (htoken (hm.symm.trans hstar))
    · exact hne hstar
  · rcases hhead with ⟨m, he, -, hgap, hnear⟩ | ⟨hany, -, -⟩
    · rw [he]
      exact hnear.behind_tick hgap ht
    · exact hany
  · rcases hhead with ⟨m, he, -, hgap, hnear⟩ | ⟨-, hne, -⟩
    · rw [he]
      exact hnear.before_tick hgap ht
    · exact hne

/-- The lexemes of a script are tidy when each is by itself and beside the next. -/
theorem tidy_lex (hr : '\r' ∉ t) (htame : ∀ l ∈ (lex t).1, l.Tame)
    (hquote : ∀ l ∈ (lex t).1, ∀ q, Token.isQuote q = true → l.token ≠ .punct q)
    (hnext : List.IsChain Neighbours (lex t).1)
    (hlast : Gap true (lex t).2 ∧ Script.Mute (Script.unticked (lex t).2)) :
    Tidy (lex t).1 (lex t).2 := by
  induction hn : t.length using Nat.strongRecOn generalizing t with
  | ind n ih =>
    cases hdrop : t.drop (gapLength t) with
    | nil =>
      rw [lex_of_drop_nil hdrop] at hlast ⊢
      exact hlast
    | cons c cs =>
      have hlen : (Token.read c cs).rest.length < n := by
        have h₁ := Token.length_rest_read c cs
        have h₂ := congrArg List.length hdrop
        simp only [List.length_drop, List.length_cons] at h₂
        omega
      have hskip : skipLength (c :: cs) = 0 := skipLength_of_gapLength (by
        have := gapLength_skip t
        rwa [skip, hdrop] at this)
      have hreturns : '\r' ∉ c :: cs := fun hm =>
        hr ((List.drop_suffix _ t).subset (hdrop ▸ hm))
      rw [lex_of_drop_cons hdrop] at htame hquote hnext hlast ⊢
      obtain ⟨hl, htame⟩ := List.forall_mem_cons.1 htame
      obtain ⟨hlquote, hquote⟩ := List.forall_mem_cons.1 hquote
      have hread := Token.source_read c cs
      have hrest : '\r' ∉ (Token.read c cs).rest := fun hm => hreturns (by
        rw [hread]
        exact List.mem_append_right _ hm)
      have htidy := ih _ hlen hrest htame hquote hnext.tail hlast rfl
      have hwritten := (Token.written_read hlquote).2
      rw [hread] at hskip hreturns
      rw [Position.source_lex (Token.read c cs).rest] at hwritten hskip hreturns
      exact ⟨hl, htidy.meets hnext hwritten hskip hreturns, htidy⟩

end

end Lexeme

private theorem Token.word?_eq_some {t : Token} {w : Text} : t.word? = some w ↔ t = .word w := by
  cases t <;> simp [word?]

namespace Script

/-- The text nowhere begins like the first word of a phrase, nor goes on like one. -/
def Dull (t : Text) : Prop :=
  ∀ u ∈ t.tails, u ≠ [] → ∀ ws ∈ patterns, ∀ w ∈ ws.head?,
    ¬Text.fold u <+: Text.fold w ∧ ¬Text.fold w <+: Text.fold u

instance (t : Text) : Decidable (Dull t) :=
  inferInstanceAs (Decidable (∀ u ∈ t.tails, u ≠ [] → ∀ ws ∈ patterns, ∀ w ∈ ws.head?, _ ∧ _))

private theorem Dull.mute {t : Text} (h : Dull t) : Mute t := by
  intro ws hws u hu hne r
  obtain ⟨w, v, vs, rfl, -⟩ := Lexeme.exists_of_mem_patterns hws
  obtain ⟨hbegins, hgoes⟩ := h u ((List.mem_tails _ _).2 hu) hne _ hws w rfl
  by_contra hsome
  obtain ⟨s, hs⟩ := Option.ne_none_iff_exists'.1 hsome
  obtain ⟨x, hx⟩ := exists_of_afterWords? hs
  obtain ⟨y, he, hy⟩ := Text.afterFolded?_eq_some.1 hx
  rcases List.prefix_or_prefix_of_prefix (he ▸ List.prefix_append y x) (List.prefix_append u r) with
    hyu | huy
  · exact hgoes (hy ▸ hyu.map Text.foldChar)
  · exact hbegins (hy ▸ huy.map Text.foldChar)

end Script

namespace Lexeme

open Script (Mute unticked)

/-- Whether no word of the token hides a phrase and no blank stands for itself. -/
def isPlainToken : Token → Bool
  | .word name => name.all Text.isWordPart &&
      phraseWords.all fun w => Text.fold name != Text.fold w || Text.same name w
  | .punct c => !Text.isBlank c
  | _ => true

/-- Whether the text begins with no backtick or is a bare word between backticks. -/
def showsName (l : Lexeme) : Bool :=
  l.text.head? != some '\x60' || l.token.word?.any fun w =>
    decide (IsWord w) && l.text == '\x60' :: (w ++ ['\x60'])

/-- Whether a name between double quotes holds no other quotes and no phrase. -/
def showsQuoted (l : Lexeme) : Bool :=
  match l.token with
  | .quoted '\"' v => l.text == Text.enclosed '\"' v && decide ('\x60' ∉ v ∧ '\"' ∉ v) &&
      decide (Script.Dull l.text)
  | _ => true

/-- Whether the lexeme hides no phrase, the gap in front of it left out. -/
def isTame (l : Lexeme) : Bool :=
  isPlainToken l.token && l.showsName && l.showsQuoted && !l.token.isWord "delimiter"

private theorem gap_of_separators {g : Text} {atEnd : Bool} (h : ∀ c ∈ g, isSeparator c = true) :
    Gap atEnd g := by
  have hgap : Gap atEnd (g ++ []) := Gap.append_separators h .nil
  rwa [List.append_nil] at hgap

private theorem mute_of_separators {g : Text} (h : ∀ c ∈ g, isSeparator c = true) :
    Mute (unticked g) := by
  intro ws hws u hu hne r
  by_contra hsome
  obtain ⟨s, hs⟩ := Option.ne_none_iff_exists'.1 hsome
  obtain ⟨c, u, rfl⟩ := List.exists_cons_of_ne_nil hne
  have hstart := isWordStart_of_afterWords? hws hs
  have hsep := h c (List.mem_of_mem_filter (hu.subset List.mem_cons_self))
  have hblank := Statement.isBlank_of_isSeparator hsep
  exact absurd ((Token.isBlank_of_continuesWord
    (Token.continuesWord_of_isWordStart hstart)).symm.trans hblank) (by simp)

private theorem tame_of_isTame {l : Lexeme} (h : l.isTame = true) (hgap : Gap false l.gap)
    (hmute : Mute (unticked l.gap)) : l.Tame := by
  simp only [isTame, Bool.and_eq_true, Bool.not_eq_true'] at h
  obtain ⟨⟨⟨hplain, hname⟩, hquoted⟩, hdelimiter⟩ := h
  refine {
    gap := hgap
    mute := hmute
    word := fun name hk => ?_
    ticked := fun ht => ?_
    quoted := fun v hk => ?_
    punct := fun c hk => ?_
    delimiter := hdelimiter }
  · simp only [hk, isPlainToken, Bool.and_eq_true, List.all_eq_true, Bool.or_eq_true,
      bne_iff_ne] at hplain
    exact unbroken_of_forall hplain.1 fun w hw he => (hplain.2 w hw).resolve_left fun h => h he
  · simp only [showsName, ht, bne_self_eq_false, Bool.false_or, Option.any_eq_true,
      Bool.and_eq_true, decide_eq_true_eq, beq_iff_eq] at hname
    obtain ⟨w, hk, hw, he⟩ := hname
    exact ⟨w, hw, Token.word?_eq_some.1 hk, he⟩
  · simp only [showsQuoted, hk, Bool.and_eq_true, beq_iff_eq, decide_eq_true_eq] at hquoted
    obtain ⟨⟨htext, htick, hquote⟩, hdull⟩ := hquoted
    exact ⟨htext, htick, hdull.mute, fun _ => hquote⟩
  · simpa [hk, isPlainToken] using hplain

end Lexeme

namespace Script

open Lexeme

/-- The statements of a tidy script and of the prepared script have the same lexemes, prepared. -/
theorem forall₂_split {script : Text} (hr : '\r' ∉ script)
    (ht : Tidy (lex script).1 (lex script).2)
    (hc : CollationsApart (lex script).1 (lex script).2)
    (hfirst : beginsCollation (lex script).1 = false) (hwithin : CollationsWithin (lex script).1) :
    List.Forall₂ SamePrepared (Statement.split script) (Statement.split (prepare script)) := by
  obtain ⟨ls', g', he, hrew, hg⟩ := ht.exists_prepare hc
  have htidy := hrew.tidy (List.Subset.refl _) ht hg fun _ => hc
  have hsource := Position.source_lex script
  have hstep := hrew.goes (u := ['\n']) ht htidy hg (by simp [isSeparator])
    (fun h => absurd rfl h) ⟨alike_nil, open_nil _, open_nil _⟩ (fun _ => hfirst) hwithin
  rw [Goes, ← he, ← hsource] at hstep
  rw [Statement.split_eq, Statement.split_eq, Statement.lineFeeds_of_not_mem hr,
    Statement.lineFeeds_of_not_mem (not_mem_prepare hr)]
  exact hstep

/-- What preparation takes for a name, a comment or a phrase is one to the lexer, and phrases stand
where the parser looks for types. -/
structure Regular (script : Text) : Prop where
  returns : '\r' ∉ script
  lexemes : ∀ l ∈ tokenize script, l.Tame
  quotes : ∀ l ∈ tokenize script, ∀ q, Token.isQuote q = true → l.token ≠ .punct q
  neighbours : List.IsChain Neighbours (tokenize script)
  last : Gap true (lex script).2 ∧ Mute (unticked (lex script).2)
  apart : CollationsApart (tokenize script) (lex script).2
  first : beginsCollation (tokenize script) = false
  within : CollationsWithin (tokenize script)
  statements : ∀ s ∈ Statement.split script, Stable (tokenize s.text)

/-- The statements that begin the definition of a table. -/
def definitions (script : Text) : List Statement :=
  (Statement.split script).filter fun s => (Table.header? (tokenize s.text)).isSome

/-- The second statement is the first to the lexer, or it is the first with its lexemes prepared,
and phrases stand where the parser looks for types. -/
def Corresponds (s s' : Statement) : Prop :=
  tokenize s'.text = tokenize s.text ∨ SamePrepared s s' ∧ Stable (tokenize s.text)

/-- The table definitions of a script correspond one by one to those of the prepared script. -/
def InStep (script : Text) : Prop :=
  List.Forall₂ Corresponds (definitions script) (definitions (prepare script))

private theorem isSome_header? {s s' : Statement} (h : SamePrepared s s')
    (hs : Stable (tokenize s.text)) :
    (Table.header? (tokenize s.text)).isSome ↔ (Table.header? (tokenize s'.text)).isSome := by
  have hheader := Rewritten.sameHeader h hs.placed
  generalize Table.header? (tokenize s.text) = p, Table.header? (tokenize s'.text) = q at hheader
  cases hheader with
  | none => exact Iff.rfl
  | some _ => exact Iff.rfl

private theorem Regular.inStep {script : Text} (h : Regular script) : InStep script := by
  have htidy := tidy_lex h.returns h.lexemes h.quotes h.neighbours h.last
  have hsplit := forall₂_split h.returns htidy h.apart h.first h.within
  have hstable : List.Forall₂ (fun s s' => Stable (tokenize s.text) ∧ SamePrepared s s')
      (Statement.split script) (Statement.split (prepare script)) :=
    (List.forall₂_and_left _ _).2 ⟨h.statements, hsplit⟩
  have hdefinitions := List.rel_filter (fun s s' hs => isSome_header? hs.2 hs.1) hstable
  exact hdefinitions.imp fun s s' hs => .inr ⟨hs.2, hs.1⟩

/-- Preparation and the splitter take each of two scripts, one after the other, by itself. -/
structure Seam (a b : Text) : Prop where
  prepare : Script.prepare (a ++ b) = Script.prepare a ++ Script.prepare b
  split : Statement.split (a ++ b) = Statement.split a ++ Statement.split b
  split_prepare : Statement.split (Script.prepare a ++ Script.prepare b) =
    Statement.split (Script.prepare a) ++ Statement.split (Script.prepare b)

/-- A script of parts each of which stays as it is, whatever it holds, or defines no table, or is
regular. Its lines may end with a carriage return and a line feed. -/
inductive Transparent : Text → Prop
  | kept {script : Text} (h : prepare script = script) : Transparent script
  | idle {script : Text} (h : definitions script = []) (h' : definitions (prepare script) = []) :
      Transparent script
  | regular {script : Text} (h : Regular script) : Transparent script
  | crlf {script : Text} (hr : '\r' ∉ script) (h : Transparent script) :
      Transparent (Text.crlf script)
  | append {a b : Text} (h : Seam a b) (ha : Transparent a) (hb : Transparent b) :
      Transparent (a ++ b)

private theorem inStep_of_prepare_eq {script : Text} (h : prepare script = script) :
    InStep script := by
  rw [InStep, h]
  exact List.forall₂_same.2 fun s _ => .inl rfl

private theorem InStep.crlf {script : Text} (h : InStep script) (hr : '\r' ∉ script) :
    InStep (Text.crlf script) := by
  rw [InStep, prepare_crlf, definitions, split_crlf hr, definitions,
    split_crlf (not_mem_prepare hr)]
  exact h

private theorem InStep.append {a b : Text} (ha : InStep a) (hb : InStep b) (h : Seam a b) :
    InStep (a ++ b) := by
  rw [InStep, h.prepare, definitions, definitions, h.split, h.split_prepare, List.filter_append,
    List.filter_append]
  exact List.rel_append ha hb

private theorem Transparent.inStep {script : Text} (h : Transparent script) : InStep script := by
  induction h with
  | kept h => exact inStep_of_prepare_eq h
  | idle h h' =>
    rw [InStep, h, h']
    exact .nil
  | regular h => exact h.inStep
  | crlf hr _ ih => exact ih.crlf hr
  | append h _ _ iha ihb => exact iha.append ihb h

end Script

/-- The names of the tables of a report, and their columns by name and type. -/
def Report.shapes (r : Report) : List (Text × List (Text × Option ColumnType)) :=
  r.tables.map Table.shape

private theorem Report.shapes_ofScript (script : Text) :
    (Report.ofScript script).shapes =
      (Script.definitions script).filterMap fun s => Table.shapeOf? (tokenize s.text) := by
  rw [shapes, ofScript, tables_ofOutcomes, List.filterMap_map, List.map_filterMap,
    Script.definitions, List.filterMap_filter]
  refine List.filterMap_congr fun s _ => ?_
  have hread : Option.map Table.shape (Table.read s.text).result.toOption =
      Table.shapeOf? (tokenize s.text) := Table.shape_read s.text
  rw [Function.comp_apply, hread]
  cases hheader : Table.header? (tokenize s.text) with
  | none => simp [Table.shapeOf?, hheader]
  | some p => rfl

namespace Script

open Lexeme

private theorem Corresponds.shapeOf? {s s' : Statement} (h : Corresponds s s') :
    Table.shapeOf? (tokenize s'.text) = Table.shapeOf? (tokenize s.text) := by
  rcases h with he | ⟨hprepared, hstable⟩
  · rw [he]
  · exact Table.shapeOf?_prepared hprepared hstable

private theorem filterMap_shapeOf? {ss ss' : List Statement} (h : List.Forall₂ Corresponds ss ss') :
    (ss'.filterMap fun s => Table.shapeOf? (tokenize s.text)) =
      ss.filterMap fun s => Table.shapeOf? (tokenize s.text) := by
  induction h with
  | nil => rfl
  | cons h _ ih => rw [List.filterMap_cons, List.filterMap_cons, h.shapeOf?, ih]

end Script

end TableDialects
