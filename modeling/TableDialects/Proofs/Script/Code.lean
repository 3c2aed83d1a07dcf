import TableDialects.Proofs.Script.Replacement
import Mathlib.Data.List.TakeWhile

/-!
# Prepared code

Preparation takes the backticks out of code, makes one word of each type name of several words and
takes the default collations out. On a tidy source each pass rewrites lexemes, so all of them do.
-/
namespace TableDialects

namespace Text

/-- Only letters are like other characters. -/
theorem foldChar_of_not_isWordStart {c : Char} (h : Token.isWordStart c = false) :
    foldChar c = c := by
  have hletter : ∀ n ∈ capitals, Token.isWordStart (Char.ofNat n) = true := by decide
  unfold foldChar
  split
  · next hc =>
    obtain rfl : c = 'ſ' := Char.ext (UInt32.toNat_inj.1 hc)
    exact absurd h (by decide +kernel)
  · split
    · next hc =>
      obtain rfl : c = '\u212A' := Char.ext (UInt32.toNat_inj.1 hc)
      exact absurd h (by decide +kernel)
    · refine (toLower_eq_or_mem c).resolve_right fun hc => ?_
      have hstart := hletter c.toNat hc
      rw [Char.ofNat_toNat, h] at hstart
      exact absurd hstart (by simp)

/-- What folds to a text that begins with no letter begins with the same character. -/
theorem exists_of_fold_cons {u w : Text} {d : Char} (h : fold u = fold (d :: w))
    (hd : Token.isWordStart d = false) : ∃ t, u = d :: t ∧ fold t = fold w := by
  obtain ⟨c, t, rfl, hc, ht⟩ := List.map_eq_cons_iff.1 h
  refine ⟨t, ?_, ht⟩
  have hstart : Token.isWordStart c = false := by
    rw [← isWordStart_foldChar, hc, isWordStart_foldChar, hd]
  rw [foldChar_of_not_isWordStart hstart, foldChar_of_not_isWordStart hd] at hc
  rw [hc]

private theorem exists_of_fold_append {u v w : Text} (h : fold u = fold (v ++ w)) :
    ∃ a b, u = a ++ b ∧ fold a = fold v ∧ fold b = fold w := by
  rw [fold, fold, List.map_append] at h
  exact List.map_eq_append_iff.1 h

private theorem takeWhile_doubled (q : Char) (v r : Text) :
    (doubled q v ++ q :: r).takeWhile (· != q) = v.takeWhile (· != q) := by
  induction v with
  | nil => simp [doubled]
  | cons c v ih =>
    rw [doubled_cons]
    by_cases hc : c = q
    · simp [hc]
    · simpa [hc] using ih

end Text

namespace Lexeme

open Script (Mute Cleaned unticked Misses afterWords? collationLength?)
open Text (fold afterFolded?)

section
variable {l : Lexeme} {ls : List Lexeme} {g r s : Text}

/-- A source that begins with neither a separator nor a dash nor a slash begins with a token. -/
theorem Tidy.exists_of_cons {c : Char} {t : Text} (h : Tidy ls g) (he : source ls ++ g = c :: t)
    (hc : isSeparator c = false) (hd : c ≠ '-' ∧ c ≠ '/') :
    ∃ m ms cs, ls = m :: ms ∧ m.gap = [] ∧ m.text = c :: cs ∧ cs ++ (source ms ++ g) = t := by
  have hgap : ∀ {atEnd : Bool} {u v : Text}, Gap atEnd u → u ++ v = c :: t → u = [] := by
    intro atEnd u v hu hv
    rcases hu.head with rfl | ⟨d, w, rfl, hfirst⟩
    · rfl
    · obtain ⟨rfl, -⟩ := List.cons.inj hv
      rcases hfirst with hsep | rfl | rfl
      · exact absurd (hc.symm.trans hsep) (by simp)
      · exact absurd rfl hd.1
      · exact absurd rfl hd.2
  cases ls with
  | nil =>
    have hnil := hgap (v := []) h.1 (by simpa using he)
    simp [hnil] at he
  | cons m ms =>
    rw [source_cons, List.append_assoc, List.append_assoc] at he
    have hnil := hgap h.1.gap he
    obtain ⟨d, cs, htext, -⟩ := h.2.1.written.read
    rw [hnil, htext] at he
    obtain ⟨rfl, ht⟩ := List.cons.inj he
    exact ⟨m, ms, cs, rfl, hnil, htext, ht⟩

/-- A tame name between double quotes in front of which preparation finds the default collation is
the name of the default collation. -/
theorem Tame.same_default (h : l.Tame) {v z : Text} (hv : l.token = .quoted '\"' v)
    (he : l.text ++ r = z ++ s) (hz : fold z = fold "\"default\"") :
    Text.same v "default" = true ∧ r = s := by
  obtain ⟨htext, -, -, hdefault⟩ := h.quoted v hv
  have hsplit : "\"default\"".toList = '\"' :: ("default".toList ++ ['\"']) := by decide
  rw [hsplit] at hz
  obtain ⟨y, rfl, hy⟩ := Text.exists_of_fold_cons hz (by decide)
  obtain ⟨name, q, rfl, hname, hq⟩ := Text.exists_of_fold_append hy
  obtain ⟨e, rfl, hnil⟩ := Text.exists_of_fold_cons hq (by decide)
  obtain rfl : e = [] := List.map_eq_nil_iff.1 hnil
  have hletters : ∀ c ∈ name, c ≠ 'ſ' ∧ c ≠ '\"' := by
    have hall : Text.foldChar 'ſ' ∉ fold "default" ∧ Text.foldChar '\"' ∉ fold "default" := by
      decide +kernel
    intro c hc
    have hm : Text.foldChar c ∈ fold "default" := hname ▸ List.mem_map_of_mem hc
    exact ⟨fun he => hall.1 (he ▸ hm), fun he => hall.2 (he ▸ hm)⟩
  have hascii : ("default".toList.all fun c => Text.isAscii c && c.toLower != 'k') = true := by
    decide
  have hsame : Text.same name "default" = true :=
    Text.same_of_fold hname (fun hm => (hletters _ hm).1 rfl) fun c hc => by
      simpa using List.all_eq_true.1 hascii c hc
  rw [htext, Text.enclosed, List.cons_append, List.cons_append, List.append_assoc,
    List.append_assoc, List.cons.injEq] at he
  -- the name ends at the first quote on either side
  have hspan : v.takeWhile (· != '\"') = name := by
    rw [← Text.takeWhile_doubled '\"' v r]
    refine (congrArg _ he.2).trans (Text.takeWhile_append_eq_left.2 ⟨fun c hc => ?_, by simp⟩)
    simpa using (hletters c hc).2
  have hmem : '\"' ∉ v := hdefault (hspan ▸ hsame)
  have hname : v = name := by
    rw [← hspan]
    refine (List.takeWhile_eq_self_iff.2 fun c hc => ?_).symm
    have : c ≠ '\"' := by
      rintro rfl
      exact hmem hc
    simpa using this
  rw [Text.doubled_of_not_mem hmem, ← hname] at he
  exact ⟨hname ▸ hsame, by simpa using he.2⟩

/-- The default collation as preparation looks for it. -/
abbrev collationWords : List String := ["COLLATE", "pg_catalog.\"default\""]

private theorem collationWords_mem_patterns : collationWords ∈ Script.patterns := by decide

/-- A default collation that is found at a lexeme is four lexemes. -/
theorem Tidy.exists_collation (h : Tidy (l :: ls) g)
    (hf : afterWords? collationWords (l.text ++ (source ls ++ g)) = some s) :
    ∃ b c d us, ls = b :: c :: d :: us ∧ beginsCollation [l, b, c, d] = true ∧
      s = source us ++ g := by
  obtain ⟨s₁, hs₁, hblank, hrest⟩ := Script.afterWords?_cons_cons.1 hf
  obtain ⟨u, he, hu⟩ := Text.afterFolded?_eq_some.1 hs₁
  obtain ⟨v, hl, -, rfl, hv⟩ := h.2.1.exists_of_fold (by decide) he hu
  obtain rfl := eq_nil_of_isBlank_head hv hblank
  rw [List.append_nil] at hl
  have hcollate : l.token.isWord "collate" = true := by
    rw [hl]
    exact (h.1.word _ hl).whole "collate" (by decide) (hu.trans (by decide))
  obtain ⟨w, he, hw⟩ := Text.afterFolded?_eq_some.1 (show afterFolded? _ _ = some s from hrest)
  have hsplit : "pg_catalog.\"default\"".toList =
      "pg_catalog".toList ++ '.' :: "\"default\"".toList := by decide
  rw [hsplit] at hw
  obtain ⟨x, y, rfl, hx, hy⟩ := Text.exists_of_fold_append hw
  obtain ⟨z, rfl, hz⟩ := Text.exists_of_fold_cons hy (by decide)
  rw [List.append_assoc] at he
  have hnext : afterFolded? "pg_catalog" (Text.trimStart (source ls ++ g)) =
      some (('.' :: z) ++ s) := Text.afterFolded?_eq_some.2 ⟨x, he, hx⟩
  obtain ⟨b, bs, rfl, htrim⟩ := h.2.2.exists_of_trimStart (by decide) hnext
  obtain ⟨v, hb, -, hpoint, hv⟩ := h.2.2.2.1.exists_of_fold (by decide) (htrim.symm.trans he) hx
  obtain rfl : v = [] := by
    cases v with
    | nil => rfl
    | cons c v =>
      obtain ⟨rfl, -⟩ := List.cons.inj hpoint
      exact absurd (hv _ List.mem_cons_self) (by decide)
  rw [List.append_nil] at hb
  have hcatalog : b.token.isWord "pg_catalog" = true := by
    rw [hb]
    exact (h.2.2.1.word _ hb).whole "pg_catalog" (by decide) hx
  obtain ⟨c, cs, ds, rfl, -, hc, hds⟩ :=
    h.2.2.2.2.exists_of_cons hpoint.symm (by decide) (by decide)
  obtain ⟨hctoken, rfl⟩ :=
    Token.Written.eq_punct (hc ▸ h.2.2.2.2.2.1.written) (by decide) (by decide)
  obtain ⟨e, rfl, -⟩ := Text.exists_of_fold_cons
    (show fold z = fold ('\"' :: "default\"".toList) from hz) (by decide)
  obtain ⟨d, us, fs, rfl, -, hd, hfs⟩ :=
    h.2.2.2.2.2.2.exists_of_cons hds (by decide) (by decide)
  obtain ⟨v, hdtoken⟩ : ∃ v, d.token = .quoted '\"' v :=
    (Token.Written.of_isQuote (hd ▸ h.2.2.2.2.2.2.2.1.written) (by decide)).1
  obtain ⟨hsame, hs⟩ := h.2.2.2.2.2.2.1.same_default hdtoken
    (r := source us ++ g) (z := '\"' :: e) (s := s) (by rw [hd, List.cons_append, hfs]; rfl) hz
  refine ⟨b, c, d, us, rfl, ?_, hs.symm⟩
  simpa [beginsCollation, hcollate, hcatalog, hctoken, hdtoken] using hsame

private theorem misses_collation_gap (hm : Mute g) (hr : r.head?.any Text.isBlank = false)
    (hnone : afterWords? collationWords r = none) (b : Option Char) :
    Misses collationLength? b g r := by
  rintro v w rfl hw n hn
  obtain ⟨-, s, hs, -⟩ := Script.collationLength?_eq_some hn
  cases hblank : Text.blank w with
  | true =>
    rw [Text.trimStart_blank_append hblank, trimStart_eq hr, hnone] at hs
    cases hs
  | false =>
    have hne : Text.trimStart w ≠ [] := by
      intro hnil
      have := List.dropWhile_eq_nil_iff.1 hnil
      rw [Text.blank, List.all_eq_true.2 this] at hblank
      cases hblank
    have hsuffix : Text.trimStart w <:+ v ++ w :=
      (List.dropWhile_suffix _).trans (List.suffix_append v w)
    rw [Text.trimStart_append hblank, hm _ collationWords_mem_patterns _ hsuffix hne r] at hs
    cases hs

private theorem collationLength?_of_some {b : Option Char}
    (h : afterWords? collationWords (Text.trimStart r) = some s)
    (hb : b.any Text.isWordPart = false ∨ r.head?.any Text.isBlank = true) :
    collationLength? b r = some (r.length - s.length) := by
  rw [collationLength?, if_neg, h, Option.map_some]
  rcases hb with hb | hb <;> simp [hb]

/-- A collation that is found at a lexeme goes with the blanks in front of it, unless it follows a
word at once. -/
theorem collationLength?_source (run : List Lexeme) {b : Option Char}
    (hgap : ∀ c ∈ l.gap, isSeparator c = true)
    (hblank : (l.text ++ (source run ++ s)).head?.any Text.isBlank = false)
    (hfound : afterWords? collationWords (l.text ++ (source run ++ s)) = some s)
    (hfirst : ¬ (b.any Text.isWordPart = true ∧ l.gap = [])) :
    collationLength? b (source (l :: run) ++ s) = some (source (l :: run)).length := by
  have hblanks : Text.blank l.gap = true :=
    List.all_eq_true.2 fun c hc => Statement.isBlank_of_isSeparator (hgap c hc)
  have htrim : Text.trimStart (source (l :: run) ++ s) = l.text ++ (source run ++ s) := by
    rw [source_cons, List.append_assoc, List.append_assoc, Text.trimStart_blank_append hblanks,
      trimStart_eq hblank]
  rw [collationLength?_of_some (htrim ▸ hfound), List.length_append, Nat.add_sub_cancel]
  by_cases hnil : l.gap = []
  · exact .inl (by simpa [hnil] using hfirst)
  · obtain ⟨c, t, hc⟩ := List.exists_cons_of_ne_nil hnil
    right
    rw [source_cons, hc]
    exact Statement.isBlank_of_isSeparator (hgap c (by simp [hc]))

/-- The source after the default collations have gone is the source of the lexemes after the
same. -/
theorem Tidy.exists_replaceCollation (hls : Tidy ls g) (hbare : ∀ l ∈ ls, l.Bare)
    (hg : '\x60' ∉ g)
    (hblanks : ∀ s, s <:+ ls → beginsCollation s = true →
      ∀ l ∈ s.head?, ∀ c ∈ l.gap, isSeparator c = true)
    (b : Option Char) :
    ∃ ls', Script.replace collationLength? [] b (source ls ++ g) = source ls' ++ g ∧
      Rewritten Cleaned [] True ls ls' := by
  induction hn : ls.length using Nat.strongRecOn generalizing ls b with
  | ind n ih =>
    cases ls with
    | nil =>
      refine ⟨[], ?_, .nil⟩
      exact Script.replace_of_misses (misses_collation_gap (mute_gap hls.2 hg) rfl (by decide) b)
    | cons l ls =>
      obtain ⟨hl, hrest⟩ := List.forall_mem_cons.1 hbare
      have hblank := hls.1.isBlank_head_append hls.2.1 (source ls ++ g)
      have hsource : source (l :: ls) ++ g = l.gap ++ (l.text ++ (source ls ++ g)) := by simp
      -- where no match begins all goes on behind the lexeme
      have hkeep : Misses collationLength? b l.gap (l.text ++ (source ls ++ g)) →
          (∀ n, collationLength? (l.gap.getLast?.or b) (l.text ++ (source ls ++ g)) ≠
            some (n + 1)) →
          ∃ ls', Script.replace collationLength? [] b (source (l :: ls) ++ g) = source ls' ++ g ∧
            Rewritten Cleaned [] True (l :: ls) ls' := by
        intro hgap hfirst
        have hmiss := hls.1.misses collationWords_mem_patterns looks_collationLength? hls.2.1 hl
          hfirst
        obtain ⟨ls', hls', hrew⟩ := ih ls.length (by simp at hn; omega) hls.2.2 hrest
          (fun s hs => hblanks s (hs.trans (List.suffix_cons l ls)))
          (l.text.getLast?.or (l.gap.getLast?.or b)) rfl
        refine ⟨l :: ls', ?_, .keep (.refl l) hrew⟩
        rw [hsource, Script.replace_append hgap, Script.replace_append hmiss, hls']
        simp
      cases hfound : afterWords? collationWords (l.text ++ (source ls ++ g)) with
      | none =>
        refine hkeep (misses_collation_gap (mute_gap hls.1.mute hl.gap) hblank hfound b)
          fun n hmatch => ?_
        obtain ⟨-, s, hs, -⟩ := Script.collationLength?_eq_some hmatch
        rw [trimStart_eq hblank, hfound] at hs
        cases hs
      | some s =>
        obtain ⟨x, y, z, us, rfl, hbegins, rfl⟩ := hls.exists_collation hfound
        have hgap := hblanks _ (List.suffix_refl _) hbegins l rfl
        by_cases hfirst : b.any Text.isWordPart = true ∧ l.gap = []
        · -- right behind a word the collation stays
          refine hkeep (fun v w he hw => ?_) fun n hmatch => ?_
          · rw [hfirst.2] at he
            exact absurd (List.append_eq_nil_iff.1 he.symm).2 hw
          · obtain ⟨hbefore | hbefore, -⟩ := Script.collationLength?_eq_some hmatch
            · rw [hfirst.2] at hbefore
              exact absurd (hbefore.symm.trans hfirst.1) (by simp)
            · exact absurd (hblank.symm.trans hbefore) (by simp)
        · have hmatched : source (l :: x :: y :: z :: us) ++ g =
              source [l, x, y, z] ++ (source us ++ g) := by
            simp
          have hlen := collationLength?_source [x, y, z] hgap
            (hls.1.isBlank_head_append hls.2.1 _) (by simpa using hfound) hfirst
          obtain ⟨us', hus, hrew⟩ := ih us.length (by simp at hn; omega)
            (hls.of_append (u := [l, x, y, z]))
            (fun m hm => hrest m (by simp [hm]))
            (fun s hs => hblanks s (hs.trans (List.suffix_append [l, x, y, z] us)))
            (source [l, x, y, z]).getLast? rfl
          refine ⟨us', ?_, .collation trivial hbegins hrew⟩
          rw [hmatched, Script.replace_of_some hlen, hus, List.nil_append]
          obtain ⟨c, cs, htext, -⟩ := hls.2.1.written.read
          simp [htext]

/-- The token is no literal between single quotes. -/
def IsCode (l : Lexeme) : Prop := ∀ v, l.token ≠ .quoted '\'' v

private theorem not_tick_of_continuesWord {u : Text} (h : ∀ c ∈ u, Token.continuesWord c = true) :
    '\x60' ∉ u := fun hm => absurd (h _ hm) (by decide)

/-- Only a name between backticks has backticks. -/
theorem Tame.not_mem_tick (h : l.Tame) (hm : l.Meets r) (hcode : l.IsCode)
    (ht : l.text.head? ≠ some '\x60') : '\x60' ∉ l.text := by
  have hw := hm.written
  generalize hk : l.token = k at hw
  generalize hu : l.text = u at hw ht
  cases hw with
  | @literal q v s hq _ _ =>
    have htick : q ≠ '\x60' := fun he => ht (he ▸ rfl)
    rw [Token.ofLiteral, if_neg htick] at hk
    have hdouble : q = '\"' := by
      have hsingle : q ≠ '\'' := fun he => hcode v (he ▸ hk)
      simpa [Token.isQuote, htick, hsingle] using hq
    subst hdouble
    obtain ⟨htext, hv, -⟩ := h.quoted v hk
    rw [← hu, htext]
    exact Text.not_mem_enclosed (by decide) hv
  | number _ hn =>
    intro hm
    rcases mem_numeral_eq hn _ hm with hd | hd <;> exact absurd hd (by decide)
  | word hc hcs _ => exact not_tick_of_continuesWord (Token.continuesWord_of_mem hc hcs)
  | @punct c hc _ =>
    intro hm
    obtain rfl : '\x60' = c := by simpa using hm
    exact absurd hc (by decide)
  | _ => decide

/-- A lexeme of code without its backticks. -/
theorem Tame.exists_bare (h : l.Tame) (hm : l.Meets r) (hcode : l.IsCode) :
    ∃ l', Kept Cleaned l l' ∧ l'.Bare ∧ unticked (l.gap ++ l.text) = l'.gap ++ l'.text := by
  rw [Script.unticked_append]
  by_cases ht : l.text.head? = some '\x60'
  · obtain ⟨w, hw, htoken, htext⟩ := h.ticked ht
    have hname : '\x60' ∉ w := by
      obtain ⟨c, cs, rfl, hc, hcs⟩ := hw.exists_cons
      exact not_tick_of_continuesWord (Token.continuesWord_of_mem hc hcs)
    refine ⟨⟨unticked l.gap, w, l.token⟩, ⟨.inr rfl, rfl, .inr ⟨hw, htoken, htext⟩⟩,
      ⟨Script.not_mem_unticked _, hw.head?_ne_tick, hcode⟩, ?_⟩
    have htexts : l.text = ['\x60'] ++ (w ++ ['\x60']) := htext
    rw [htexts, Script.unticked_append, Script.unticked_append, Script.unticked_of_not_mem hname]
    simp [unticked]
  · exact ⟨⟨unticked l.gap, l.text, l.token⟩, ⟨.inr rfl, rfl, .inl rfl⟩,
      ⟨Script.not_mem_unticked _, ht, hcode⟩,
      by rw [Script.unticked_of_not_mem (h.not_mem_tick hm hcode ht)]⟩

/-- The source without backticks is the source of the lexemes without theirs. -/
theorem Tidy.exists_unticked (h : Tidy ls g) (hcode : ∀ l ∈ ls, l.IsCode) :
    ∃ ls', unticked (source ls ++ g) = source ls' ++ unticked g ∧
      Rewritten Cleaned [] False ls ls' ∧ ∀ l ∈ ls', l.Bare := by
  induction ls with
  | nil => exact ⟨[], Script.unticked_append [] g, .nil, by simp⟩
  | cons l ls ih =>
    obtain ⟨hl, hrest⟩ := List.forall_mem_cons.1 hcode
    obtain ⟨ls', hls, hrew, hbare⟩ := ih h.2.2 hrest
    obtain ⟨l', hkept, hl', htext⟩ := h.1.exists_bare h.2.1 hl
    refine ⟨l' :: ls', ?_, .keep hkept hrew, List.forall_mem_cons.2 ⟨hl', hbare⟩⟩
    have hsource : ∀ (m : Lexeme) (ms : List Lexeme) (t : Text),
        source (m :: ms) ++ t = m.gap ++ m.text ++ (source ms ++ t) := by simp
    rw [hsource, hsource, Script.unticked_append, hls, htext]

/-- What a rewritten list ends with is the end of the list, rewritten. -/
theorem Rewritten.exists_suffix {ps : List (List String × String)} {ls' s' : List Lexeme}
    (h : Rewritten Cleaned ps False ls ls') (hs : s' <:+ ls') :
    ∃ s, s <:+ ls ∧ Rewritten Cleaned ps False s s' := by
  induction h with
  | nil =>
    obtain rfl := List.suffix_nil.1 hs
    exact ⟨[], List.suffix_refl _, .nil⟩
  | @keep l l' ls ls' hl h ih =>
    rcases List.suffix_cons_iff.1 hs with rfl | hs
    · exact ⟨_, List.suffix_refl _, .keep hl h⟩
    · obtain ⟨s, hsuffix, hrew⟩ := ih hs
      exact ⟨s, hsuffix.trans (List.suffix_cons l ls), hrew⟩
  | @type p l run ls ls' g hp hspells hlen hg h ih =>
    rcases List.suffix_cons_iff.1 hs with rfl | hs
    · exact ⟨_, List.suffix_refl _, .type hp hspells hlen hg h⟩
    · obtain ⟨s, hsuffix, hrew⟩ := ih hs
      exact ⟨s, hsuffix.trans (List.suffix_append (l :: run) ls), hrew⟩
  | collation hd => exact hd.elim

private theorem Rewritten.separators {ps : List (List String × String)} {ls' : List Lexeme}
    (h : Rewritten Cleaned ps False ls ls') (hps : ps ⊆ typePhrases)
    (hc : CollationsApart ls g) {s' : List Lexeme} (hs : s' <:+ ls')
    (hbegins : beginsCollation s' = true) : ∀ l ∈ s'.head?, ∀ c ∈ l.gap, isSeparator c = true := by
  obtain ⟨a, b, c, d, t, rfl⟩ := exists_of_beginsCollation hbegins
  obtain ⟨s, hsuffix, hrew⟩ := h.exists_suffix hs
  obtain ⟨a', b', c', d', bs, rfl, hkept, hbegins', -⟩ := hrew.exists_collation hps hbegins
  have hblanks : ∀ e ∈ a'.gap, isSeparator e = true := (hc _ hsuffix hbegins').1 a' rfl
  intro l hl e he
  obtain rfl : a = l := by simpa using hl
  rcases hkept.gap with heq | heq
  · exact hblanks e (heq ▸ he)
  · exact hblanks e (List.mem_of_mem_filter (heq ▸ he))

/-- Prepared code is the source of the prepared lexemes. -/
theorem Tidy.exists_prepareCode (h : Tidy ls g) (hcode : ∀ l ∈ ls, l.IsCode)
    (hc : CollationsApart ls g) :
    ∃ ls', Script.prepareCode (source ls ++ g) = source ls' ++ unticked g ∧
      Prepared Cleaned ls ls' := by
  have hg : '\x60' ∉ unticked g := Script.not_mem_unticked g
  obtain ⟨ls₁, he₁, hrew₁, hbare₁⟩ := h.exists_unticked hcode
  have htidy₁ := hrew₁.tidy (List.nil_subset _) h (.inr rfl) False.elim
  obtain ⟨ls₂, he₂, hstep₂⟩ := htidy₁.exists_replacePhrase
    (p := (["timestamp", "with", "time", "zone"], "timestamptz")) (by decide) hbare₁ hg none
  have hrew₂ := hrew₁.trans (List.nil_subset _) hstep₂ (by simp)
  have htidy₂ := hrew₂.tidy (by decide) h (.inr rfl) False.elim
  have hbare₂ := hstep₂.bare (by decide) hbare₁
  obtain ⟨ls₃, he₃, hstep₃⟩ := htidy₂.exists_replacePhrase
    (p := (["timestamp", "without", "time", "zone"], "timestamp")) (by decide) hbare₂ hg none
  have hrew₃ := hrew₂.trans (by decide) hstep₃ (by decide)
  have htidy₃ := hrew₃.tidy (by decide) h (.inr rfl) False.elim
  have hbare₃ := hstep₃.bare (by decide) hbare₂
  obtain ⟨ls₄, he₄, hstep₄⟩ := htidy₃.exists_replacePhrase
    (p := (["character", "varying"], "varchar")) (by decide) hbare₃ hg none
  have hrew₄ := hrew₃.trans (by decide) hstep₄ (by decide)
  have htidy₄ := hrew₄.tidy (by decide) h (.inr rfl) False.elim
  have hbare₄ := hstep₄.bare (by decide) hbare₃
  obtain ⟨ls₅, he₅, hstep₅⟩ := htidy₄.exists_replaceCollation hbare₄ hg
    (fun s hs hbegins => hrew₄.separators (by decide) hc hs hbegins) none
  refine ⟨ls₅, ?_, hrew₄.trans (by decide) hstep₅ (by simp)⟩
  rw [← he₅, ← he₄, ← he₃, ← he₂, ← he₁]
  rfl

end

end Lexeme

end TableDialects
