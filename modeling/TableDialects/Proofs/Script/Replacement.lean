import TableDialects.Proofs.Script.Column
import TableDialects.Proofs.Script.Match
import TableDialects.Proofs.Script.Source
import TableDialects.Proofs.Statement.Groups

/-!
# Replacements in tidy sources

Preparation replaces phrases in the text before it is lexed. In a tidy source each match is a run of
lexemes that spell the phrase, so the text that comes out is the source of the rewritten lexemes.
-/
namespace TableDialects

namespace Text

theorem isWordStart_foldChar (c : Char) :
    Token.isWordStart (foldChar c) = Token.isWordStart c := by
  have hlower : ∀ c : Char, Token.isWordStart c.toLower = Token.isWordStart c :=
    apply_toLower Token.isWordStart (by decide)
  unfold foldChar
  split
  · next h =>
    obtain rfl : c = 'ſ' := Char.ext (UInt32.toNat_inj.1 h)
    decide +kernel
  · split
    · next h =>
      obtain rfl : c = '\u212A' := Char.ext (UInt32.toNat_inj.1 h)
      decide +kernel
    · exact hlower c

/-- A word of ASCII letters and underscores that no letter outside ASCII is taken for, apart from
the long s. -/
structure IsAsciiWord (w : Text) : Prop where
  ne_nil : w ≠ []
  letters : ∀ c ∈ w, Token.isWordStart c = true ∧ isAscii c = true ∧ c.toLower ≠ 'k'

instance (w : Text) : Decidable (IsAsciiWord w) :=
  decidable_of_iff (w ≠ [] ∧ w.all (fun c => Token.isWordStart c && isAscii c &&
      c.toLower != 'k') = true)
    ⟨fun h => ⟨h.1, by simpa [and_assoc] using h.2⟩,
      fun h => ⟨h.1, by simpa [and_assoc] using h.2⟩⟩

private theorem isWordStart_of_fold {u w : Text} (hw : IsAsciiWord w) (h : fold u = fold w) :
    ∀ c ∈ u, Token.isWordStart c = true := by
  intro c hc
  have hm : foldChar c ∈ fold w := h ▸ List.mem_map_of_mem hc
  obtain ⟨d, hd, he⟩ := List.mem_map.1 hm
  rw [← isWordStart_foldChar, ← he, isWordStart_foldChar]
  exact (hw.letters d hd).1

theorem exists_cons_of_fold {u w : Text} (hw : IsAsciiWord w) (h : fold u = fold w) :
    ∃ c t, u = c :: t ∧ ∀ d ∈ c :: t, Token.isWordStart d = true := by
  obtain ⟨c, t, rfl⟩ : ∃ c t, u = c :: t := by
    refine List.exists_cons_of_ne_nil fun hnil => hw.ne_nil ?_
    rw [hnil] at h
    exact List.map_eq_nil_iff.1 h.symm
  exact ⟨c, t, rfl, isWordStart_of_fold hw h⟩

private theorem toLower_of_foldChar {c d : Char} (h : foldChar c = foldChar d) (hc : c ≠ 'ſ')
    (hd : isAscii d = true) (hk : d.toLower ≠ 'k') : c.toLower = d.toLower := by
  have hd' : foldChar d = d.toLower := by
    have hlt : d.toNat < 128 := by simpa [isAscii] using hd
    rw [foldChar, if_neg (by omega), if_neg (by omega)]
  have hne : c.toNat ≠ 0x17F := fun he => hc (Char.ext (UInt32.toNat_inj.1 he))
  rw [hd', foldChar, if_neg hne] at h
  split at h
  · exact absurd h.symm hk
  · exact h

/-- Without the long s, preparation and the lexer compare with keywords alike. -/
theorem same_of_fold {u w : Text} (h : fold u = fold w) (hu : 'ſ' ∉ u)
    (hw : ∀ c ∈ w, isAscii c = true ∧ c.toLower ≠ 'k') : same u w = true := by
  rw [same, beq_iff_eq]
  induction u generalizing w with
  | nil =>
    obtain rfl : w = [] := List.map_eq_nil_iff.1 h.symm
    rfl
  | cons c u ih =>
    obtain ⟨d, w, rfl, hd, hrest⟩ := List.map_eq_cons_iff.1 h.symm
    simp only [List.mem_cons, not_or] at hu
    rw [List.forall_mem_cons] at hw
    rw [lowerAscii, List.map_cons, lowerAscii, List.map_cons,
      toLower_of_foldChar hd.symm (Ne.symm hu.1) hw.1.1 hw.1.2]
    exact congrArg _ (ih hrest.symm hu.2 hw.2)

end Text

namespace Lexeme

open Script (Mute Cleaned unticked Misses afterWords?)
open Text (IsAsciiWord fold afterFolded?)

section
variable {l : Lexeme} {ls : List Lexeme} {g r s u : Text}

/-- A lexeme of code from which the backticks are gone. -/
structure Bare (l : Lexeme) : Prop where
  gap : '\x60' ∉ l.gap
  text : l.text.head? ≠ some '\x60'
  token : ∀ v, l.token ≠ .quoted '\'' v

theorem Token.Written.of_isWordStart {k : Token} {c : Char} {cs : Text}
    (h : Token.Written r k (c :: cs)) (hc : Token.isWordStart c = true) :
    k = .word (c :: cs) ∧ (∀ d ∈ c :: cs, Token.continuesWord d = true) ∧
      r.takeWhile Token.continuesWord = [] := by
  generalize he : c :: cs = u at h
  have hfirst : ∀ {d : Char} {ds : Text}, c :: cs = d :: ds →
      Token.isWordStart d = false → False := by
    intro d ds he hd
    obtain ⟨rfl, -⟩ := List.cons.inj he
    exact absurd (hd.symm.trans hc) (by simp)
  cases h with
  | literal hq _ _ =>
    obtain ⟨rfl, -⟩ := List.cons.inj he
    exact absurd (hq.symm.trans (Token.isQuote_of_isWordStart hc)) (by simp)
  | number hd _ =>
    obtain ⟨rfl, -⟩ := List.cons.inj he
    exact absurd (hd.symm.trans (Token.isDigit_of_isWordStart hc)) (by simp)
  | word hc hcs hr => exact ⟨rfl, Token.continuesWord_of_mem hc hcs, hr⟩
  | punct hother _ =>
    simp only [Token.isOther, Bool.and_eq_true, Bool.not_eq_true'] at hother
    exact (hfirst he hother.1.1.1.2).elim
  | _ => exact (hfirst he (by decide)).elim

/-- What folds to a keyword begins a word. -/
theorem Meets.exists_of_fold (h : l.Meets r) {w : Text} (hw : IsAsciiWord w)
    (he : l.text ++ r = u ++ s) (hu : fold u = fold w) :
    ∃ v, l.token = .word (u ++ v) ∧ l.text = u ++ v ∧ s = v ++ r ∧
      ∀ c ∈ v, Token.continuesWord c = true := by
  obtain ⟨c, u, rfl, hstart⟩ := Text.exists_cons_of_fold hw hu
  obtain ⟨d, ds, htext, -⟩ := h.written.read
  obtain rfl : d = c := by
    rw [htext] at he
    exact (List.cons.inj he).1
  obtain ⟨htoken, hall, hr⟩ :=
    Token.Written.of_isWordStart (htext ▸ h.written) (hstart d List.mem_cons_self)
  have hcontinues : ∀ e ∈ d :: u, Token.continuesWord e = true :=
    fun e he => Token.continuesWord_of_isWordStart (hstart e he)
  have hspan : l.text = d :: u ++ s.takeWhile Token.continuesWord := by
    rw [← List.takeWhile_append_of_pos hcontinues, ← he, htext,
      Text.takeWhile_append_eq_left.2 ⟨hall, hr⟩]
  refine ⟨s.takeWhile Token.continuesWord, ?_, hspan, ?_,
    fun e he => List.all_eq_true.1 List.all_takeWhile e he⟩
  · rw [← hspan, htext]
    exact htoken
  · rw [hspan, List.append_assoc] at he
    exact (List.append_cancel_left he).symm

theorem Tame.isBlank_head (h : l.Tame) (hm : l.Meets r) :
    l.text.head?.any Text.isBlank = false := by
  obtain ⟨c, cs, he, -⟩ := hm.written.read
  have hw := hm.written
  rw [he] at hw ⊢
  generalize hk : l.token = k at hw
  have hword : Token.continuesWord c = true → Text.isBlank c = false :=
    Token.isBlank_of_continuesWord
  rw [List.head?_cons, Option.any_some]
  cases hw with
  | literal hq _ _ =>
    simp only [Token.isQuote, Bool.or_eq_true, beq_iff_eq] at hq
    rcases hq with (rfl | rfl) | rfl <;> decide
  | number hd _ => exact hword (Token.continuesWord_of_isDigit hd)
  | word hc _ _ => exact hword (Token.continuesWord_of_isWordStart hc)
  | punct _ _ => exact h.punct c hk
  | _ => decide

theorem Tame.isBlank_head_append (h : l.Tame) (hm : l.Meets r) (t : Text) :
    (l.text ++ t).head?.any Text.isBlank = false := by
  obtain ⟨c, cs, he, -⟩ := hm.written.read
  have hhead := h.isBlank_head hm
  rw [he] at hhead ⊢
  exact hhead

/-- Blanks are trimmed up to the first comment or token. -/
theorem Gap.trimStart {atEnd : Bool} (h : Gap atEnd g) (hr : r.head?.any Text.isBlank = false) :
    (∀ c ∈ g, isSeparator c = true) ∧ Text.trimStart (g ++ r) = r ∨
      ∃ c t, Text.trimStart (g ++ r) = c :: t ∧ (c = '-' ∨ c = '/') := by
  induction h with
  | nil =>
    refine .inl ⟨by simp, ?_⟩
    cases r with
    | nil => rfl
    | cons c r => exact Text.trimStart_cons (by simpa using hr) r
  | @separator c hc g _ ih =>
    have hblank : Text.trimStart (c :: g ++ r) = Text.trimStart (g ++ r) :=
      Text.trimStart_blank_append (b := [c])
        (by simp [Text.blank, Statement.isBlank_of_isSeparator hc]) _
    rw [hblank]
    rcases ih with ⟨hg, ht⟩ | hcomment
    · exact .inl ⟨List.forall_mem_cons.2 ⟨hc, hg⟩, ht⟩
    · exact .inr hcomment
  | line _ _ => exact .inr ⟨_, _, Text.trimStart_cons (by decide) _, .inl rfl⟩
  | block _ _ => exact .inr ⟨_, _, Text.trimStart_cons (by decide) _, .inr rfl⟩
  | last _ _ => exact .inr ⟨_, _, Text.trimStart_cons (by decide) _, .inl rfl⟩

/-- The word after blanks is the next lexeme. -/
theorem Tidy.exists_of_trimStart (h : Tidy ls g) {w : Text} (hw : IsAsciiWord w)
    (hf : afterFolded? w (Text.trimStart (source ls ++ g)) = some s) :
    ∃ m ms, ls = m :: ms ∧ Text.trimStart (source ls ++ g) = m.text ++ (source ms ++ g) := by
  obtain ⟨u, he, hu⟩ := Text.afterFolded?_eq_some.1 hf
  obtain ⟨c, u, rfl, hstart⟩ := Text.exists_cons_of_fold hw hu
  have hc := hstart c List.mem_cons_self
  have hcomment : ∀ d t, d = '-' ∨ d = '/' → Text.trimStart (source ls ++ g) ≠ d :: t := by
    intro d t hd ht
    rw [ht] at he
    obtain ⟨rfl, -⟩ := List.cons.inj he
    rcases hd with rfl | rfl <;> exact absurd hc (by decide)
  cases ls with
  | nil =>
    rcases h.1.trimStart (r := []) (by simp) with ⟨-, ht⟩ | ⟨d, t, ht, hd⟩
    · rw [List.append_nil] at ht
      rw [source_nil, List.nil_append, ht] at he
      cases he
    · rw [List.append_nil] at ht
      exact absurd ht (hcomment d t hd)
  | cons m ms =>
    refine ⟨m, ms, rfl, ?_⟩
    rw [source_cons, List.append_assoc, List.append_assoc] at hcomment ⊢
    rcases h.1.gap.trimStart (h.1.isBlank_head_append h.2.1 (source ms ++ g)) with
      ⟨-, ht⟩ | ⟨d, t, ht, hd⟩
    · exact ht
    · exact absurd ht (hcomment d t hd)

/-- What goes on a word in front of a blank is nothing. -/
theorem eq_nil_of_isBlank_head {v : Text} (hv : ∀ c ∈ v, Token.continuesWord c = true)
    (h : (v ++ r).head?.any Text.isBlank = true) : v = [] := by
  cases v with
  | nil => rfl
  | cons c v =>
    have hc := Token.isBlank_of_continuesWord (hv c List.mem_cons_self)
    exact absurd (hc.symm.trans h) (by simp)

/-- A phrase that is found at a lexeme is spelled by the lexemes from there on. -/
theorem Tidy.exists_run {ws : List String} (hws : ∀ w ∈ ws, IsAsciiWord w.toList ∧ w ∈ phraseWords)
    (hend : ∃ w ∈ closers, ws.getLast? = some w) (h : Tidy (l :: ls) g)
    (hf : afterWords? ws (l.text ++ (source ls ++ g)) = some s)
    (hs : s.head?.any Text.isWordPart = false) :
    ∃ run us, ls = run ++ us ∧ (l :: run).length = ws.length ∧ spells ws (l :: run) = true ∧
      s = source us ++ g := by
  induction ws generalizing l ls with
  | nil => simp at hend
  | cons w ws ih =>
    obtain ⟨t, ht⟩ := Script.exists_of_afterWords? hf
    obtain ⟨u, he, hu⟩ := Text.afterFolded?_eq_some.1 ht
    obtain ⟨hascii, hphrase⟩ := hws w List.mem_cons_self
    obtain ⟨v, htoken, htext, rfl, hv⟩ := h.2.1.exists_of_fold hascii he hu
    have hunbroken := h.1.word _ htoken
    have hne : u ≠ [] := by
      rintro rfl
      exact hascii.ne_nil (List.map_eq_nil_iff.1 hu.symm)
    cases ws with
    | nil =>
      obtain rfl : v ++ (source ls ++ g) = s := Option.some.inj (ht.symm.trans hf)
      obtain ⟨w', hw', hlast⟩ := hend
      obtain rfl : w = w' := by simpa using hlast
      obtain rfl : v = [] := by
        by_contra hvne
        obtain ⟨c, v, rfl⟩ := List.exists_cons_of_ne_nil hvne
        rcases (hunbroken.parts u (c :: v) rfl hne (List.cons_ne_nil c v)).2 with hpart | hone
        · exact absurd (hs.symm.trans hpart) (by simp)
        · exact hone w hw' hu
      rw [List.append_nil] at htoken hunbroken
      refine ⟨[], ls, rfl, rfl, ?_, rfl⟩
      rw [spells, htoken, spells, Bool.and_true]
      exact hunbroken.whole w hphrase hu
    | cons w' ws =>
      obtain ⟨t', ht', hblank, hrest⟩ := Script.afterWords?_cons_cons.1 hf
      obtain rfl := Option.some.inj (ht.symm.trans ht')
      obtain rfl := eq_nil_of_isBlank_head hv hblank
      rw [List.append_nil] at htoken hunbroken
      rw [List.nil_append] at hrest
      obtain ⟨t', ht'⟩ := Script.exists_of_afterWords? hrest
      obtain ⟨m, ms, rfl, htrim⟩ := h.2.2.exists_of_trimStart (hws w' (by simp)).1 ht'
      rw [htrim] at hrest
      obtain ⟨run, us, rfl, hlen, hspells, hs'⟩ :=
        ih (fun w hw => hws w (List.mem_cons_of_mem _ hw)) (by simpa using hend) h.2.2 hrest
      refine ⟨m :: run, us, rfl, ?_, ?_, hs'⟩
      · rw [List.length_cons, hlen]
        rfl
      · rw [spells, hspells, htoken, Bool.and_true]
        exact hunbroken.whole w hphrase hu

/-- A match begins with the first word of a phrase, after the end of a word or at a blank. -/
def Looks (ws : List String) (f : Option Char → Text → Option Nat) : Prop :=
  ∀ b t n, f b t = some (n + 1) →
    (b.any Text.isWordPart = false ∨ t.head?.any Text.isBlank = true) ∧
      ∃ s, afterWords? ws (Text.trimStart t) = some s

theorem exists_of_mem_patterns {ws : List String} (h : ws ∈ Script.patterns) :
    ∃ w v vs, ws = w :: v :: vs ∧ IsAsciiWord w.toList ∧
      ∃ o ∈ openers, fold w.toList = fold o.toList := by
  simp only [Script.patterns, typePhrases, List.map_cons, List.map_nil, List.mem_append,
    List.mem_cons, List.not_mem_nil, or_false] at h
  rcases h with (rfl | rfl | rfl) | rfl
  all_goals exact ⟨_, _, _, rfl, by decide, by decide⟩

theorem isWordStart_of_afterWords? {ws : List String} (hws : ws ∈ Script.patterns) {c : Char}
    {t : Text} (h : afterWords? ws (c :: t) = some s) : Token.isWordStart c = true := by
  obtain ⟨w, v, vs, rfl, hw, -⟩ := exists_of_mem_patterns hws
  obtain ⟨s', hs'⟩ := Script.exists_of_afterWords? h
  obtain ⟨u, he, hu⟩ := Text.afterFolded?_eq_some.1 hs'
  obtain ⟨d, u, rfl, hstart⟩ := Text.exists_cons_of_fold hw hu
  obtain ⟨rfl, -⟩ := List.cons.inj he
  exact hstart c List.mem_cons_self

theorem trimStart_eq {t : Text} (h : t.head?.any Text.isBlank = false) : Text.trimStart t = t := by
  cases t with
  | nil => rfl
  | cons c t => exact Text.trimStart_cons (by simpa using h) t

private theorem looks_phraseLength? {ws : List String} (hws : ws ∈ Script.patterns) :
    Looks ws (Script.phraseLength? ws) := by
  intro b t n h
  obtain ⟨hb, s, hs, -⟩ := Script.phraseLength?_eq_some h
  refine ⟨.inl hb, s, ?_⟩
  have hhead : t.head?.any Text.isBlank = false := by
    cases t with
    | nil => rfl
    | cons c t =>
      have hc := Token.continuesWord_of_isWordStart (isWordStart_of_afterWords? hws hs)
      simpa using Token.isBlank_of_continuesWord hc
  rwa [trimStart_eq hhead]

theorem looks_collationLength? :
    Looks ["COLLATE", "pg_catalog.\"default\""] Script.collationLength? := by
  intro b t n h
  obtain ⟨hb, s, hs, -⟩ := Script.collationLength?_eq_some h
  exact ⟨hb, s, hs⟩

theorem mem_numeral_eq (h : Token.Numeral r u) : ∀ c ∈ u, c.isDigit = true ∨ c = '.' := by
  cases h with
  | whole hds _ => exact fun c hc => .inl (hds c hc)
  | fraction hds hfs _ _ =>
    intro c hc
    rcases List.mem_append.1 hc with hc | hc
    · exact .inl (hds c hc)
    · exact (List.mem_cons.1 hc).elim .inr fun hc => .inl (hfs c hc)

/-- No phrase begins in the end of a name between double quotes. -/
theorem Tame.afterWords?_quoted {ws : List String} (hws : ws ∈ Script.patterns) (h : l.Tame)
    {name v w : Text} (hk : l.token = .quoted '\"' name) (he : l.text = v ++ w) (hw : w ≠ []) :
    afterWords? ws (Text.trimStart (w ++ r)) = none := by
  obtain ⟨htext, -, hmute, -⟩ := h.quoted name hk
  have hlast : w.getLast? = some '\"' := by
    have := congrArg List.getLast? (he.symm.trans htext)
    rw [List.getLast?_append_of_ne_nil _ hw] at this
    rw [this, Text.enclosed, List.getLast?_cons]
    simp
  have hmem : '\"' ∈ Text.trimStart w :=
    Text.mem_dropWhile (by decide) (List.mem_of_getLast? hlast)
  have hblank : Text.blank w = false := by
    by_contra hall
    rw [Text.trimStart_of_blank (by simpa using hall)] at hmem
    cases hmem
  have hsuffix : Text.trimStart w <:+ l.text :=
    (List.dropWhile_suffix _).trans (he ▸ List.suffix_append _ _)
  rw [Text.trimStart_append hblank]
  exact hmute ws hws _ hsuffix (List.ne_nil_of_mem hmem) _

/-- No word goes on at a blank. -/
theorem takeWhile_continuesWord_of_blank {t : Text} (h : t.head?.all Text.isBlank = true) :
    t.takeWhile Token.continuesWord = [] := by
  cases t with
  | nil => rfl
  | cons c t =>
    refine Text.takeWhile_eq_nil_cons.2 ?_
    by_contra hc
    have hblank := Token.isBlank_of_continuesWord (c := c) (by simpa using hc)
    exact absurd (hblank.symm.trans (by simpa using h)) (by simp)

/-- A phrase that begins with all the rest of a word begins with an opening word. -/
theorem exists_opener {ws : List String} (hws : ws ∈ Script.patterns) {w : Text}
    (hall : ∀ c ∈ w, Token.continuesWord c = true) (hr : r.takeWhile Token.continuesWord = [])
    (hs : afterWords? ws (w ++ r) = some s) : ∃ o ∈ openers, fold w = fold o.toList := by
  obtain ⟨x, y, xs, rfl, hx, o, ho, hxo⟩ := exists_of_mem_patterns hws
  obtain ⟨s', hs', hgap, -⟩ := Script.afterWords?_cons_cons.1 hs
  obtain ⟨z, he, hz⟩ := Text.afterFolded?_eq_some.1 hs'
  have hzs := fun c hc => Token.continuesWord_of_isWordStart (Text.isWordStart_of_fold hx hz c hc)
  have hstop := takeWhile_continuesWord_of_blank (t := s') (by cases s' <;> simp_all)
  have hrest : w = z := Text.run_unique hall hr hzs hstop he
  exact ⟨o, ho, hrest ▸ hz.trans hxo⟩

/-- No match begins within a token, apart from its first character. -/
theorem Tame.not_match {ws : List String} (hws : ws ∈ Script.patterns)
    {f : Option Char → Text → Option Nat} (hf : Looks ws f) (h : l.Tame) (hm : l.Meets r)
    (hb : l.Bare) {v w : Text} (he : l.text = v ++ w) (hv : v ≠ []) (hw : w ≠ []) (b : Option Char)
    (n : Nat) : f (v.getLast?.or b) (w ++ r) ≠ some (n + 1) := by
  intro hmatch
  obtain ⟨hbefore, s, hs⟩ := hf _ _ _ hmatch
  obtain ⟨c, w, rfl⟩ := List.exists_cons_of_ne_nil hw
  obtain ⟨d, v, rfl⟩ := List.exists_cons_of_ne_nil hv
  -- a character that neither is blank nor begins a word begins no match
  have hother : Text.isBlank c = false → Token.isWordStart c = false → False := by
    intro hblank hstart
    rw [trimStart_eq (by simpa using hblank)] at hs
    exact absurd (hstart.symm.trans (isWordStart_of_afterWords? hws hs)) (by simp)
  have hwritten := hm.written
  rw [he] at hwritten
  generalize hk : l.token = k at hwritten
  generalize hu : d :: v ++ c :: w = u at hwritten
  cases hwritten with
  | @literal q x y hq _ _ =>
    have hquote : q = '\"' := by
      obtain ⟨rfl, -⟩ := List.cons.inj hu
      have htick : d ≠ '\x60' := fun hd => hb.text (by rw [he, hd]; rfl)
      have hsingle : d ≠ '\'' := by
        rintro rfl
        exact hb.token x hk
      simpa [Token.isQuote, htick, hsingle] using hq
    subst hquote
    rw [h.afterWords?_quoted hws hk he hw] at hs
    cases hs
  | number hc hn =>
    have hmem : c ∈ d :: v ++ c :: w := by simp
    rcases mem_numeral_eq (hu ▸ hn) c hmem with hdigit | rfl
    · exact hother (Token.isBlank_of_continuesWord (Token.continuesWord_of_isDigit hdigit))
        (by_contra fun hstart => absurd
          (hdigit.symm.trans (Token.isDigit_of_isWordStart (by simpa using hstart))) (by simp))
    · exact hother (by decide) (by decide)
  | @word e cs hc hcs hr =>
    have hall : ∀ x ∈ c :: w, Token.continuesWord x = true := fun x hx => by
      obtain ⟨rfl, rfl⟩ := List.cons.inj hu
      exact hcs x (List.mem_append_right v hx)
    have hblank := Token.isBlank_of_continuesWord (hall c List.mem_cons_self)
    rw [trimStart_eq (by simpa using hblank)] at hs
    rcases ((h.word _ hk).parts (d :: v) (c :: w) hu.symm hv hw).1 with hpart | hone
    · have hlast : (d :: v).getLast?.or b = (d :: v).getLast? := by
        rw [List.getLast?_eq_some_getLast hv]
        rfl
      rw [hlast] at hbefore
      rcases hbefore with hbefore | hbefore
      · exact absurd (hbefore.symm.trans hpart) (by simp)
      · exact absurd (hblank.symm.trans hbefore) (by simp)
    · obtain ⟨o, ho, hopener⟩ := exists_opener hws hall hr hs
      exact hone o ho hopener
  | cast =>
    obtain rfl : c = ':' := by
      have hc : c ∈ [':', ':'] := hu ▸ List.mem_append_right _ List.mem_cons_self
      simpa using hc
    exact hother (by decide) (by decide)
  | _ => simp at hu

theorem Tame.misses {ws : List String} (hws : ws ∈ Script.patterns)
    {f : Option Char → Text → Option Nat} (hf : Looks ws f) (h : l.Tame) (hm : l.Meets r)
    (hb : l.Bare) {b : Option Char} (hfirst : ∀ n, f b (l.text ++ r) ≠ some (n + 1)) :
    Misses f b l.text r := by
  intro v w he hw n
  by_cases hv : v = []
  · subst hv
    rw [he] at hfirst
    exact hfirst n
  · exact h.not_match hws hf hm hb he hv hw b n

theorem mute_gap (h : Mute (unticked g)) (hg : '\x60' ∉ g) : Mute g := by
  rwa [Script.unticked_of_not_mem hg] at h

private theorem misses_phrase {ws : List String} (hws : ws ∈ Script.patterns) (h : Mute g)
    (b : Option Char) (r : Text) : Misses (Script.phraseLength? ws) b g r := by
  rintro v w rfl hw n hn
  obtain ⟨-, s, hs, -⟩ := Script.phraseLength?_eq_some hn
  rw [h ws hws w (List.suffix_append v w) hw r] at hs
  cases hs

theorem Kept.refl (l : Lexeme) : Kept Cleaned l l := ⟨.inl rfl, rfl, .inl rfl⟩

private theorem mem_patterns {p : List String × String} (hp : p ∈ typePhrases) :
    p.1 ∈ Script.patterns :=
  List.mem_append_left _ (List.mem_map_of_mem hp)

/-- The source after a type name of several words has become one word is the source of the lexemes
after the same. -/
theorem Tidy.exists_replacePhrase {p : List String × String} (hp : p ∈ typePhrases)
    (hls : Tidy ls g) (hbare : ∀ l ∈ ls, l.Bare) (hg : '\x60' ∉ g) (b : Option Char) :
    ∃ ls', Script.replace (Script.phraseLength? p.1) p.2 b (source ls ++ g) = source ls' ++ g ∧
      Rewritten Cleaned [p] False ls ls' := by
  induction hn : ls.length using Nat.strongRecOn generalizing ls b with
  | ind n ih =>
    cases ls with
    | nil =>
      refine ⟨[], ?_, .nil⟩
      exact Script.replace_of_misses
        (misses_phrase (mem_patterns hp) (mute_gap hls.2 hg) b [])
    | cons l ls =>
      obtain ⟨hl, hrest⟩ := List.forall_mem_cons.1 hbare
      have hgap := misses_phrase (mem_patterns hp) (mute_gap hls.1.mute hl.gap) b
        (l.text ++ (source ls ++ g))
      rw [source_cons, List.append_assoc, List.append_assoc, Script.replace_append hgap]
      generalize l.gap.getLast?.or b = b'
      by_cases hmatch : ∃ n, Script.phraseLength? p.1 b' (l.text ++ (source ls ++ g)) = some (n + 1)
      · obtain ⟨k, hk⟩ := hmatch
        obtain ⟨-, s, hs, hend, hlen⟩ := Script.phraseLength?_eq_some hk
        have hwords : ∀ p ∈ typePhrases, (∀ w ∈ p.1, IsAsciiWord w.toList ∧ w ∈ phraseWords) ∧
            ∃ w ∈ closers, p.1.getLast? = some w := by decide
        obtain ⟨run, us, rfl, hrun, hspells, rfl⟩ :=
          hls.exists_run (hwords p hp).1 (hwords p hp).2 hs hend
        obtain ⟨us', hus, hrew⟩ := ih us.length (by simp at hn; omega) (hls.2.2.of_append)
          (fun m hm => hrest m (List.mem_append_right run hm)) ((l.text ++ source run).getLast?) rfl
        refine ⟨⟨l.gap, p.2.toList, .word p.2.toList⟩ :: us', ?_,
          .type List.mem_cons_self hspells hrun (.inl rfl) hrew⟩
        have hmatched : l.text ++ (source (run ++ us) ++ g) =
            l.text ++ source run ++ (source us ++ g) := by
          simp
        rw [hmatched] at hk hlen
        have htaken : k + 1 = (l.text ++ source run).length := by
          rw [hlen, List.length_append]
          omega
        have hne : l.text ++ source run ≠ [] := by
          intro hnil
          rw [hnil] at htaken
          simp at htaken
        rw [hmatched, Script.replace_of_some (htaken ▸ hk) hne, hus]
        simp
      · have hmiss := hls.1.misses (mem_patterns hp) (looks_phraseLength? (mem_patterns hp))
          hls.2.1 hl fun n hn => hmatch ⟨n, hn⟩
        obtain ⟨ls', hls', hrew⟩ := ih ls.length (by simp at hn; omega) hls.2.2 hrest
          (l.text.getLast?.or b') rfl
        refine ⟨l :: ls', ?_, .keep (.refl l) hrew⟩
        rw [Script.replace_append hmiss, hls']
        simp

/-- What is rewritten of bare lexemes is bare. -/
theorem Rewritten.bare {ps : List (List String × String)} {drops : Prop} {ls' : List Lexeme}
    (h : Rewritten Cleaned ps drops ls ls') (hps : ps ⊆ typePhrases) (hls : ∀ l ∈ ls, l.Bare) :
    ∀ l ∈ ls', l.Bare := by
  have hgap : ∀ {g g' : Text}, '\x60' ∉ g → Cleaned g g' → '\x60' ∉ g' := by
    intro g g' hg hc
    rcases hc with rfl | rfl
    · exact hg
    · exact Script.not_mem_unticked g
  induction h with
  | nil => exact hls
  | @keep l l' ls ls' hl h ih =>
    obtain ⟨hbare, hrest⟩ := List.forall_mem_cons.1 hls
    refine List.forall_mem_cons.2 ⟨⟨hgap hbare.gap hl.gap, ?_, ?_⟩, ih hrest⟩
    · rcases hl.text with he | ⟨hw, -, -⟩
      · rw [he]
        exact hbare.text
      · exact hw.head?_ne_tick
    · rw [hl.token]
      exact hbare.token
  | @type p l run ls ls' g hp _ _ hg h ih =>
    have hbare := hls l List.mem_cons_self
    refine List.forall_mem_cons.2 ⟨⟨hgap hbare.gap hg, ?_, ?_⟩,
      ih fun m hm => hls m (List.mem_append_right (l :: run) hm)⟩
    · exact (isWord_of_mem_typePhrases (hps hp)).head?_ne_tick
    · exact fun v hv => by cases hv
  | @collation a b c d ls ls' _ _ h ih =>
    exact ih fun m hm => hls m (List.mem_append_right [a, b, c, d] hm)

end

end Lexeme

end TableDialects
