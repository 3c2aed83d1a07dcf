import TableDialects.Proofs.Script.Literal
import TableDialects.Proofs.Script.Residue
import Mathlib.Data.List.Forall2

/-!
# Statements of prepared scripts

The splitter goes over a tidy script and over what preparation makes of it in step. It ends the
statements at the same places, and each statement is prepared by itself.
-/
namespace TableDialects

namespace Lexeme

open Script (Cleaned unticked)
open Statement (resume semicolon firstLine closed)

section
variable {l : Lexeme} {r : Text}

private theorem Tame.exists_firstLine (h : l.Tame) (hm : l.Meets r) : ∃ c t, l.text = c :: t ∧
    Text.isBlank c = false ∧ firstLine (l.text ++ r) = c :: firstLine (t ++ r) := by
  obtain ⟨c, t, he, -⟩ := hm.written.read
  have hblank := h.isBlank_head hm
  rw [he] at hblank ⊢
  have hc : Text.isBlank c = false := hblank
  have hn : c ≠ '\n' := by
    rintro rfl
    exact absurd hc (by decide)
  exact ⟨c, t, rfl, hc, Statement.firstLine_cons_of_ne hn (t ++ r)⟩

/-- A token with a word of letters at the start of its line is that word. -/
theorem Meets.token_of_firstLine (hm : l.Meets r) {c : Char} {t u v : Text}
    (htext : l.text = c :: t) (hu : ∀ d ∈ c :: u, Token.isWordStart d = true)
    (hv : v.head?.all Text.isBlank = true) (h : firstLine (l.text ++ r) = c :: u ++ v) :
    l.token = .word (c :: u) := by
  obtain ⟨htoken, hall, hr⟩ :=
    Token.Written.of_isWordStart (htext ▸ hm.written) (hu c List.mem_cons_self)
  have hline : '\n' ∉ c :: t := fun hm => absurd (hall _ hm) (by decide)
  have hstop : (firstLine r).takeWhile Token.continuesWord = [] := by
    cases r with
    | nil => rfl
    | cons d r =>
      by_cases hd : d = '\n'
      · simp [hd]
      · rw [Statement.firstLine_cons_of_ne hd]
        exact Text.takeWhile_eq_nil_cons.2 (Text.takeWhile_eq_nil_cons.1 hr)
  rw [htext, Statement.firstLine_append hline] at h
  have hword : c :: t = c :: u := Text.run_unique hall hstop
    (fun d hd => Token.continuesWord_of_isWordStart (hu d hd))
    (takeWhile_continuesWord_of_blank hv) h
  rw [htoken, hword]

/-- A line that begins with a token is no directive. -/
theorem Tame.directive? (h : l.Tame) (hm : l.Meets r) {w : Text} (hw : Text.blank w = true) :
    Statement.directive? (w ++ firstLine (l.text ++ r)) = none := by
  obtain ⟨c, t, htext, hc, hline⟩ := h.exists_firstLine hm
  obtain ⟨u, v, huv, hv, hwords⟩ := Text.exists_words_cons hw hc (firstLine (t ++ r))
  rw [← hline] at hwords
  refine Statement.directive?_of_words hwords ?_
  by_contra hsame
  rw [Bool.not_eq_false] at hsame
  have hstart := Text.isWordStart_of_same hsame (List.all_eq_true.1 (by decide))
  have htoken := hm.token_of_firstLine htext hstart hv (hline.trans (congrArg _ huv))
  have hdelimiter := h.delimiter
  rw [htoken, Token.isWord, hsame] at hdelimiter
  cases hdelimiter

private theorem Tame.opens (h : l.Tame) (hm : l.Meets r) : Opens (l.text ++ r) := by
  refine .inr fun w hw hn => ?_
  obtain ⟨c, t, htext, hc, hline⟩ := h.exists_firstLine hm
  have hdirective := h.directive? hm hw
  have hstarts := hm.starts
  rw [Statement.firstLine_append hn]
  rw [hline] at hdirective ⊢
  refine Statement.ordinary hw hc (fun hd => ?_) hdirective
  rw [htext] at hstarts
  simp only [startsToken, List.cons_append, Bool.and_eq_true, Bool.not_eq_true',
    Bool.and_eq_false_imp, beq_eq_false_iff_ne, beq_iff_eq] at hstarts
  exact Statement.head?_firstLine (hstarts.1.2 hd.1) hd.2

end

/-- The lexemes are read as they stand in front of the text, with residues between them. -/
def Sound : List Lexeme → Text → Prop
  | [], _ => True
  | l :: ls, r => Residue l.gap ∧ ClearOf { l with gap := [] } (source ls ++ r) ∧ Sound ls r

/-- The lexemes without the blanks in front of the first. -/
def fromToken (ls : List Lexeme) : List Lexeme :=
  ls.modifyHead fun l => { l with gap := Text.trimStart l.gap }

/-- The lexemes of an open statement in front of the text. -/
structure Open (as : List Lexeme) (t : Text) : Prop where
  sound : Sound as t
  solid : ∀ l ∈ as, Text.Solid l.text

section
variable {l : Lexeme} {as as' bs bs' ls ls' : List Lexeme} {g g' k r r' t t' : Text}

private theorem sound_append : Sound (as ++ bs) r ↔ Sound as (source bs ++ r) ∧ Sound bs r := by
  induction as with
  | nil => simp [Sound]
  | cons a as ih => simp [Sound, ih, and_assoc]

/-- What follows sound lexemes may be replaced by what ends every token. -/
theorem Sound.congr (h : Sound ls r) (hr : Token.breaks r' = true) : Sound ls r' := by
  induction ls with
  | nil => trivial
  | cons l ls ih => exact ⟨h.1, h.2.1.congr hr, ih h.2.2⟩

private theorem Sound.lex (h : Sound ls k) (hk : Residue k) :
    Lexeme.lex (source ls ++ k) = (ls, k) := by
  induction ls with
  | nil => exact hk.lex
  | cons l ls ih =>
    have htext := h.2.1.lex
    rw [ih h.2.2, List.nil_append] at htext
    have hgap := h.1.lex_append htext
    rw [List.append_nil] at hgap
    rw [source_cons, List.append_assoc, List.append_assoc]
    exact hgap

theorem open_nil (t : Text) : Open [] t := ⟨trivial, by simp⟩

theorem Open.blank (h : Open as t) : Text.blank (source as) = as.isEmpty := by
  cases as with
  | nil => rfl
  | cons a as =>
    obtain ⟨c, u, hu, hc⟩ := (h.solid a List.mem_cons_self).exists_cons
    simp [Text.blank, hu, hc]

private theorem trimStart_append_solid {u v : Text} (hu : Text.Solid u) (g : Text) :
    Text.trimStart (g ++ (u ++ v)) = Text.trimStart g ++ (u ++ v) := by
  obtain ⟨c, t, rfl, hc⟩ := hu.exists_cons
  cases hg : Text.blank g with
  | true => rw [Text.trimStart_blank_append hg, Text.trimStart_of_blank hg, List.cons_append,
      Text.trimStart_cons hc, List.nil_append]
  | false => exact Text.trimStart_append hg _

private theorem trimEnd_append_solid {u : Text} (hu : Text.Solid u) (g k : Text) :
    Text.trimEnd (g ++ (u ++ k)) = g ++ (u ++ Text.trimEnd k) := by
  obtain ⟨v, c, rfl⟩ := (List.eq_nil_or_concat' u).resolve_left hu.ne_nil
  have hc : Text.isBlank c = false := hu.last c (by simp)
  have htrim := Text.trimEnd_append_cons hc (g ++ v) k
  simpa using htrim

/-- The lexer reads the lexemes of a statement again when the statement is trimmed. -/
theorem Open.tokenize_trim (h : Open as (k ++ t)) (hk : Residue k) :
    tokenize (Text.trim (source as ++ k)) = fromToken as := by
  cases as with
  | nil =>
    have hlex := hk.trimStart.trimEnd.lex
    rw [source_nil, List.nil_append, tokenize, Text.trim, hlex]
    rfl
  | cons a as =>
    have hsolid : Text.Solid (a.text ++ source as) := Statement.solid_sourceFromToken h.solid
    have hsource : source (a :: as) ++ k = a.gap ++ (a.text ++ source as ++ k) := by simp
    have hends : Token.breaks (Text.trimEnd k) = true := by
      by_cases hne : Text.trimEnd k = []
      · rw [hne]
        rfl
      · have hbreaks := hk.trimEnd.breaks hne []
        rwa [List.append_nil] at hbreaks
    have hsound : Sound (fromToken (a :: as)) (Text.trimEnd k) :=
      ⟨h.sound.1.trimStart, h.sound.2.1.congr hends, h.sound.2.2.congr hends⟩
    have htrimmed : Text.trimStart a.gap ++ (a.text ++ source as ++ Text.trimEnd k) =
        source (fromToken (a :: as)) ++ Text.trimEnd k := by
      simp [fromToken]
    rw [hsource, Text.trim, trimStart_append_solid hsolid, trimEnd_append_solid hsolid, htrimmed,
      tokenize, hsound.lex hk.trimEnd]

/-- The open statement stays what it is when the scanner goes over a gap. -/
theorem Open.skip (h : Open as (g' ++ t)) (hk : Leaves false as.isEmpty g k) (hg : Cleaned g g') :
    Open as (k ++ t) := by
  refine ⟨?_, h.solid⟩
  rcases hk.ends with ⟨rfl, rfl⟩ | hne | hempty | hend
  · obtain rfl : g' = [] := by rcases hg with rfl | rfl <;> rfl
    exact h.sound
  · exact h.sound.congr (hk.residue.breaks hne t)
  · obtain rfl := List.isEmpty_iff.1 hempty
    trivial
  · exact absurd hend (by simp)

/-- The scanner takes a gap and a token into the open statement. -/
theorem Open.step (h : Open as (g' ++ (l.text ++ r))) (hk : Leaves false as.isEmpty g k)
    (hg : Cleaned g g') (ht : l.Tame) (hm : l.Meets r) :
    resume semicolon (source as) none (g' ++ (l.text ++ r)) =
        resume semicolon (source as ++ k) none (l.text ++ r) ∧
      Open (as ++ [⟨k, l.text, l.token⟩]) r := by
  refine ⟨hk.resume g' hg _ _ h.blank (by simp) (ht.opens hm), ?_, ?_⟩
  · refine sound_append.2 ⟨by simpa using (h.skip hk hg).sound, hk.residue, ?_, trivial⟩
    exact ⟨by simp, hm.starts, hm.written⟩
  · have hsolid := Statement.solid_of_written hm.written (ht.isBlank_head hm)
    simpa [or_imp, forall_and] using ⟨h.solid, hsolid⟩

/-- A token that closes no statement joins the open one. -/
theorem resume_token (hm : l.Meets r) (hl : l.token ≠ .punct ';') (as : List Lexeme) (k : Text) :
    resume semicolon (source as ++ k) none (l.text ++ r) =
      resume semicolon (source (as ++ [⟨k, l.text, l.token⟩])) none r := by
  rw [Statement.passes_written hm.written hl hm.starts]
  simp

/-- The scanner takes the tokens of a run into the open statement. -/
theorem Open.run {us : List Lexeme} (h : Open as (source (us ++ ls) ++ g)) (ht : Tidy (us ++ ls) g)
    (hus : ∀ u ∈ us, u.token ≠ .punct ';') :
    ∃ vs : List Lexeme, vs.map (·.token) = us.map (·.token) ∧
      resume semicolon (source as) none (source (us ++ ls) ++ g) =
        resume semicolon (source (as ++ vs)) none (source ls ++ g) ∧
      Open (as ++ vs) (source ls ++ g) := by
  induction us generalizing as with
  | nil =>
    refine ⟨[], rfl, ?_, ?_⟩
    · rw [List.append_nil, List.nil_append]
    · rwa [List.append_nil]
  | cons u us ih =>
    obtain ⟨hu, hrest⟩ := List.forall_mem_cons.1 hus
    obtain ⟨k, hk⟩ := ht.1.gap.exists_leaves as.isEmpty
    have hsource : source (u :: us ++ ls) ++ g = u.gap ++ (u.text ++ (source (us ++ ls) ++ g)) := by
      simp
    rw [hsource] at h ⊢
    rw [List.cons_append] at ht
    obtain ⟨hres, hopen⟩ := h.step hk (.inl rfl) ht.1 ht.2.1
    obtain ⟨vs, htokens, hres', hopen'⟩ := ih hopen ht.2.2 hrest
    refine ⟨⟨k, u.text, u.token⟩ :: vs, by simp [htokens], ?_, ?_⟩
    · rw [hres, resume_token ht.2.1 hu, hres']
      simp
    · simpa using hopen'

/-- The scanner takes a token and a run of tokens behind it into the open statement. -/
theorem Open.step_run (us : List Lexeme) (h : Open as (g' ++ (l.text ++ (source (us ++ ls) ++ r))))
    (hk : Leaves false as.isEmpty g k) (hg : Cleaned g g') (ht : Tidy (l :: (us ++ ls)) r)
    (hus : ∀ m ∈ l :: us, m.token ≠ .punct ';') :
    ∃ vs : List Lexeme, vs.map (·.token) = us.map (·.token) ∧
      resume semicolon (source as) none (g' ++ (l.text ++ (source (us ++ ls) ++ r))) =
        resume semicolon (source (as ++ ⟨k, l.text, l.token⟩ :: vs)) none (source ls ++ r) ∧
      Open (as ++ ⟨k, l.text, l.token⟩ :: vs) (source ls ++ r) := by
  obtain ⟨hl, hrest⟩ := List.forall_mem_cons.1 hus
  obtain ⟨hres, hopen⟩ := h.step hk hg ht.1 ht.2.1
  obtain ⟨vs, htokens, hres', hopen'⟩ := hopen.run ht.2.2 hrest
  refine ⟨vs, htokens, ?_, by simpa using hopen'⟩
  rw [hres, resume_token ht.2.1 hl, hres']
  simp

/-- An open statement that is closed has its lexemes again. -/
theorem Open.closed (h : Open as (k ++ t)) (hk : Residue k) (term : Text) :
    (closed term (source as ++ k)).map (tokenize ·.text) =
      if as.isEmpty && Text.blank k then [] else [fromToken as] := by
  rw [Statement.closed, Text.blank_append, h.blank]
  split
  · rfl
  · rw [List.map_singleton, h.tokenize_trim hk]

/-- The open statement of a script and that of the prepared script. -/
structure Alike (as as' : List Lexeme) : Prop where
  empty : as'.isEmpty = as.isEmpty
  prepared : Prepared Steady (fromToken as) (fromToken as')

theorem alike_nil : Alike [] [] := ⟨rfl, .nil⟩

private theorem fromToken_append (hne : as ≠ []) (bs : List Lexeme) :
    fromToken (as ++ bs) = fromToken as ++ bs := by
  obtain ⟨a, as, rfl⟩ := List.exists_cons_of_ne_nil hne
  rfl

/-- Whatever gap stands in front of the two, what joins one statement is what joins the other,
prepared. -/
theorem Alike.append_cons {u u' : Text} {x x' : Token} (h : Alike as as') (k : Text)
    (hbs : ∀ g, Prepared Steady (⟨g, u, x⟩ :: bs) (⟨g, u', x'⟩ :: bs')) :
    Alike (as ++ ⟨k, u, x⟩ :: bs) (as' ++ ⟨k, u', x'⟩ :: bs') := by
  refine ⟨by cases as <;> cases as' <;> rfl, ?_⟩
  by_cases hne : as = []
  · obtain rfl : as' = [] := List.isEmpty_iff.1 (h.empty.trans (List.isEmpty_iff.2 hne))
    subst hne
    exact hbs (Text.trimStart k)
  · have hne' : as' ≠ [] := fun hnil =>
      hne (List.isEmpty_iff.1 (h.empty.symm.trans (List.isEmpty_iff.2 hnil)))
    rw [fromToken_append hne, fromToken_append hne']
    exact h.prepared.append (hbs k)

private theorem Alike.append_left (h : Alike as as') (hne : as ≠ []) (hbs : Prepared Steady bs []) :
    Alike (as ++ bs) as' := by
  have hprepared := h.prepared.append hbs
  rw [← fromToken_append hne, List.append_nil] at hprepared
  obtain ⟨a, as, rfl⟩ := List.exists_cons_of_ne_nil hne
  exact ⟨h.empty, hprepared⟩

/-- The lexemes of the second statement are those of the first, prepared. -/
def SamePrepared (s s' : Statement) : Prop := Prepared Steady (tokenize s.text) (tokenize s'.text)

private theorem Alike.closed (h : Alike as as') (ho : Open as (k ++ t)) (ho' : Open as' (k ++ t'))
    (hk : Residue k) (term : Text) :
    List.Forall₂ SamePrepared (closed term (source as ++ k)) (closed term (source as' ++ k)) := by
  have hmap : ∀ {ss ss' : List Statement},
      List.Forall₂ (Prepared Steady) (ss.map (tokenize ·.text)) (ss'.map (tokenize ·.text)) →
      List.Forall₂ SamePrepared ss ss' := by
    intro ss ss' hss
    rwa [List.forall₂_map_left_iff, List.forall₂_map_right_iff] at hss
  refine hmap ?_
  rw [ho.closed hk, ho'.closed hk, h.empty]
  split
  · exact .nil
  · exact .cons h.prepared .nil

theorem Gap.append_separators {atEnd : Bool} {u : Text} (hu : ∀ c ∈ u, isSeparator c = true)
    (h : Gap atEnd g) : Gap atEnd (u ++ g) := by
  induction u with
  | nil => exact h
  | cons c u ih =>
    obtain ⟨hc, hrest⟩ := List.forall_mem_cons.1 hu
    exact .separator hc (ih hrest)

private theorem cleaned_append_separators {u : Text} (hu : ∀ c ∈ u, isSeparator c = true)
    (h : Cleaned g g') : Cleaned (u ++ g) (u ++ g') := by
  have hticks : '\x60' ∉ u := fun hm => absurd (hu _ hm) (by decide)
  rcases h with rfl | rfl
  · exact .inl rfl
  · right
    rw [Script.unticked_append, Script.unticked_of_not_mem hticks]

/-- No default collation stands behind a token that closes a statement. -/
def CollationsWithin (ls : List Lexeme) : Prop :=
  ∀ l s, l :: s <:+ ls → l.token = .punct ';' → beginsCollation s = false

instance (ls : List Lexeme) : Decidable (CollationsWithin ls) :=
  decidable_of_iff _ (forall_mem_tails_iff (p := fun l s =>
    l.token = .punct ';' → beginsCollation s = false))

private theorem CollationsWithin.of_append {u : List Lexeme} (h : CollationsWithin (u ++ ls)) :
    CollationsWithin ls := fun l s hs => h l s (hs.trans (List.suffix_append u ls))

private theorem not_semicolon_of_isWord {x : Token} {w : String} (h : x.isWord w = true) :
    x ≠ .punct ';' := by
  rintro rfl
  simp [Token.isWord] at h

/-- Lexemes with the tokens of a type name of several words may become one word. -/
theorem prepared_type {p : List String × String} (hp : p ∈ typePhrases) {m : Lexeme}
    {run vs : List Lexeme} (hspells : spells p.1 (l :: run) = true)
    (hlen : (l :: run).length = p.1.length)
    (h : (m :: vs).map (·.token) = (l :: run).map (·.token)) :
    Prepared Steady (m :: vs) [⟨m.gap, p.2.toList, .word p.2.toList⟩] := by
  have hspells' : spells p.1 (m :: vs) = true := (spells_congr h).trans hspells
  have hlen' : (m :: vs).length = p.1.length := by
    rw [← hlen, ← List.length_map (f := (·.token)), h, List.length_map]
  have htype : Prepared Steady (m :: vs ++ []) [⟨m.gap, p.2.toList, .word p.2.toList⟩] :=
    .type hp hspells' hlen' (fun _ => rfl) .nil
  rwa [List.append_nil] at htype

/-- Lexemes with the tokens of a default collation may go. -/
theorem prepared_collation {a b c d : Lexeme} {vs : List Lexeme}
    (hbegins : beginsCollation [a, b, c, d] = true)
    (h : vs.map (·.token) = [a, b, c, d].map (·.token)) : Prepared Steady vs [] := by
  obtain ⟨a', as, rfl, ha, h⟩ := List.map_eq_cons_iff.1 h
  obtain ⟨b', bs, rfl, hb, h⟩ := List.map_eq_cons_iff.1 h
  obtain ⟨c', cs, rfl, hc, h⟩ := List.map_eq_cons_iff.1 h
  obtain ⟨d', ds, rfl, hd, h⟩ := List.map_eq_cons_iff.1 h
  obtain rfl : ds = [] := List.map_eq_nil_iff.1 h
  refine .collation trivial ?_ .nil
  rw [← hbegins]
  simp only [beginsCollation, ha, hb, hc, hd]

/-- The open statements of a script and of the prepared script, in front of what is left of both. -/
structure Paired (as as' : List Lexeme) (t t' : Text) : Prop where
  alike : Alike as as'
  left : Open as t
  right : Open as' t'

/-- From there on the splitter finds statements that are the same, prepared. -/
def Goes (as as' : List Lexeme) (t t' : Text) : Prop :=
  List.Forall₂ SamePrepared (resume semicolon (source as) none t)
    (resume semicolon (source as') none t')

/-- Both scripts end. -/
private theorem Paired.goes_end (h : Paired as as' g g') (hgap : Gap true g) (hg : Cleaned g g') :
    Goes as as' g g' := by
  obtain ⟨k, hk⟩ := hgap.exists_leaves as.isEmpty
  have hends : Token.breaks (k ++ []) = true := by
    by_cases hne : k = []
    · rw [hne]
      rfl
    · exact hk.residue.breaks hne []
  have hres := hk.resume _ (.inl rfl) (source as) [] h.left.blank (fun _ => rfl) (.inl rfl)
  have hres' := hk.resume _ hg (source as') [] (h.right.blank.trans h.alike.empty) (fun _ => rfl)
    (.inl rfl)
  rw [List.append_nil, Statement.resume_nil] at hres hres'
  rw [Goes, hres, hres']
  exact h.alike.closed ⟨h.left.sound.congr hends, h.left.solid⟩
    ⟨h.right.sound.congr hends, h.right.solid⟩ hk.residue []

/-- Both scripts go on with the same token, which may lose its backticks. -/
private theorem Paired.goes_keep (h : Paired as as' (g ++ (l.text ++ r)) (g' ++ (l'.text ++ r')))
    (hgap : Gap false g) (hg : Cleaned g g') (hl : Kept Cleaned l l') (ht : l.Tame ∧ l.Meets r)
    (ht' : l'.Tame ∧ l'.Meets r')
    (hrest : ∀ bs bs', Paired bs bs' r r' → (bs = [] → l.token = .punct ';') → Goes bs bs' r r') :
    Goes as as' (g ++ (l.text ++ r)) (g' ++ (l'.text ++ r')) := by
  obtain ⟨k, hk⟩ := hgap.exists_leaves as.isEmpty
  have hk' := h.alike.empty ▸ hk
  obtain ⟨hres, hopen⟩ := h.left.step hk (.inl rfl) ht.1 ht.2
  obtain ⟨hres', hopen'⟩ := h.right.step hk' hg ht'.1 ht'.2
  rw [Goes, hres, hres']
  by_cases hsemi : l.token = .punct ';'
  · -- the token closes both statements
    have htext := Statement.eq_of_written_punct (hsemi ▸ ht.2.written)
    have htext' := Statement.eq_of_written_punct ((hl.token.trans hsemi) ▸ ht'.2.written)
    have hclosed := h.alike.closed (h.left.skip hk (.inl rfl)) (h.right.skip hk' hg) hk.residue
      semicolon
    rw [htext, htext', List.singleton_append, List.singleton_append, Statement.resume_semicolon,
      Statement.resume_semicolon]
    exact List.rel_append hclosed
      (hrest [] [] ⟨alike_nil, open_nil r, open_nil r'⟩ fun _ => hsemi)
  · rw [resume_token ht.2 hsemi, resume_token ht'.2 (hl.token ▸ hsemi)]
    refine hrest _ _ ⟨h.alike.append_cons k fun _ => ?_, hopen, hopen'⟩ (by simp)
    exact .keep ⟨fun _ => rfl, hl.token, hl.text⟩ .nil

/-- The script goes on with a type name of several words, the prepared script with the one word that
stands for it. -/
private theorem Paired.goes_type {p : List String × String} {run : List Lexeme}
    (hp : p ∈ typePhrases)
    (hspells : spells p.1 (l :: run) = true) (hlen : (l :: run).length = p.1.length)
    (h : Paired as as' (g ++ (l.text ++ (source (run ++ ls) ++ r))) (g' ++ (p.2.toList ++ r')))
    (hgap : Gap false g) (hg : Cleaned g g') (ht : Tidy (l :: (run ++ ls)) r)
    {u : Text} (ht' : Tame ⟨u, p.2.toList, .word p.2.toList⟩)
    (hm' : Meets ⟨u, p.2.toList, .word p.2.toList⟩ r')
    (hrest : ∀ bs bs', Paired bs bs' (source ls ++ r) r' → bs ≠ [] →
      Goes bs bs' (source ls ++ r) r') :
    Goes as as' (g ++ (l.text ++ (source (run ++ ls) ++ r))) (g' ++ (p.2.toList ++ r')) := by
  obtain ⟨k, hk⟩ := hgap.exists_leaves as.isEmpty
  have hk' := h.alike.empty ▸ hk
  have hsemi : ∀ m ∈ l :: run, m.token ≠ .punct ';' := by
    intro m hm
    obtain ⟨w, -, hw⟩ := isOneOf_of_spells hspells hlen m hm
    exact not_semicolon_of_isWord hw
  obtain ⟨vs, htokens, hres, hopen⟩ := h.left.step_run _ hk (.inl rfl) ht hsemi
  obtain ⟨hres', hopen'⟩ := h.right.step hk' hg ht' hm'
  have hword := resume_token hm' (by simp) as' k
  rw [Goes, hres, hres', hword]
  have hjoined : ∀ g, Prepared Steady (⟨g, l.text, l.token⟩ :: vs)
      [⟨g, p.2.toList, .word p.2.toList⟩] :=
    fun g => prepared_type hp hspells hlen (by simp [htokens])
  exact hrest _ _ ⟨h.alike.append_cons k hjoined, hopen, hopen'⟩ (by simp)

/-- The script goes on with a default collation, which the prepared script has no more. -/
private theorem Paired.goes_collation {a b c d : Lexeme}
    (hbegins : beginsCollation [a, b, c, d] = true) (hne : as ≠ [])
    (h : Paired as as' (source (a :: b :: c :: d :: ls) ++ r) r')
    (ht : Tidy (a :: b :: c :: d :: ls) r)
    (hrest : ∀ bs, Paired bs as' (source ls ++ r) r' → bs ≠ [] → Goes bs as' (source ls ++ r) r') :
    Goes as as' (source (a :: b :: c :: d :: ls) ++ r) r' := by
  obtain ⟨k, hk⟩ := ht.1.gap.exists_leaves as.isEmpty
  have hsemi : ∀ m ∈ [a, b, c, d], m.token ≠ .punct ';' := by
    obtain ⟨ha, hb, hc, v, hd, -⟩ := collation_tokens hbegins
    simp only [List.forall_mem_cons, hc, hd]
    exact ⟨not_semicolon_of_isWord ha, not_semicolon_of_isWord hb, by simp, by simp, by simp⟩
  have hsource : source (a :: b :: c :: d :: ls) ++ r =
      a.gap ++ (a.text ++ (source ([b, c, d] ++ ls) ++ r)) := by
    simp
  rw [hsource] at h ⊢
  obtain ⟨vs, htokens, hres, hopen⟩ := h.left.step_run [b, c, d] hk (.inl rfl) ht hsemi
  have hgone : Prepared Steady (⟨k, a.text, a.token⟩ :: vs) [] :=
    prepared_collation hbegins (by simp [htokens])
  rw [Goes, hres]
  exact hrest _ ⟨h.alike.append_left hne hgone, hopen, h.right⟩ (by simp)

/-- The splitter goes over a script and over the prepared script in step: `as` and `as'` are the
lexemes of the open statements, and `u` goes in front of both texts when these are empty. -/
theorem Rewritten.goes {u : Text} (h : Prepared Cleaned ls ls') (ht : Tidy ls g)
    (ht' : Tidy ls' g') (hg : Cleaned g g') (hu : ∀ c ∈ u, isSeparator c = true)
    (hnil : as ≠ [] → u = []) (hp : Paired as as' (u ++ (source ls ++ g)) (u ++ (source ls' ++ g')))
    (hfirst : as = [] → beginsCollation ls = false) (hwithin : CollationsWithin ls) :
    Goes as as' (u ++ (source ls ++ g)) (u ++ (source ls' ++ g')) := by
  have hsource : ∀ (u : Text) (m : Lexeme) (ms : List Lexeme) (v : Text),
      u ++ (source (m :: ms) ++ v) = u ++ m.gap ++ (m.text ++ (source ms ++ v)) := by simp
  induction h generalizing as as' u with
  | nil =>
    exact hp.goes_end (ht.1.append_separators hu) (cleaned_append_separators hu hg)
  | @keep l l' ls ls' hl h ih =>
    rw [hsource, hsource] at hp ⊢
    refine hp.goes_keep (ht.1.gap.append_separators hu) (cleaned_append_separators hu hl.gap) hl
      ⟨ht.1, ht.2.1⟩ ⟨ht'.1, ht'.2.1⟩ fun bs bs' hbs hempty => ?_
    exact ih ht.2.2 ht'.2.2 (u := []) (by simp) (fun _ => rfl) hbs
      (fun he => hwithin l ls (List.suffix_refl _) (hempty he)) (hwithin.of_append (u := [l]))
  | @type p l run ls ls' g₀ hmem hspells hlen hgap h ih =>
    rw [List.cons_append] at ht hwithin hp ⊢
    rw [hsource, hsource] at hp ⊢
    refine hp.goes_type hmem hspells hlen (ht.1.gap.append_separators hu)
      (cleaned_append_separators hu hgap) ht ht'.1 ht'.2.1 fun bs bs' hbs hne => ?_
    exact ih ht.2.2.of_append ht'.2.2 (u := []) (by simp) (fun _ => rfl) hbs
      (fun he => absurd he hne) (hwithin.of_append (u := l :: run))
  | @collation a b c d ls ls' hd hbegins h ih =>
    have hne : as ≠ [] := fun he => absurd ((hfirst he).symm.trans
      (beginsCollation_append hbegins ls)) (by simp)
    obtain rfl := hnil hne
    exact hp.goes_collation hbegins hne ht fun bs hbs hne' =>
      ih (ht.of_append (u := [a, b, c, d])) ht' (u := []) (by simp) (fun _ => rfl) hbs
        (fun he => absurd he hne') (hwithin.of_append (u := [a, b, c, d]))

end

end Lexeme

end TableDialects
