import TableDialects.Proofs.Statement.Joining
import TableDialects.Proofs.Token.Capital

/-!
# Lines that the splitter takes whole

Between its terminators and up to its comment a line is text that the splitter would take as it
is. This holds of every part of a line, also when it stands in another place.
-/
namespace TableDialects

namespace Text

/-- A piece in which a finer cut finds nothing is a piece of the finer cut. -/
theorem mem_pieces_of_finer {p q : Char → Bool} (h : ∀ c, p c = true → q c = true) {t w : Text}
    (hw : w ∈ pieces p t) (hq : ∀ c ∈ w, q c = false) : w ∈ pieces q t := by
  have hall : ∀ t : Text, ∃ a as b bs, pieces p t = a :: as ∧ pieces q t = b :: bs ∧
      ((∀ c ∈ a, q c = false) → b = a) ∧ ∀ v ∈ as, (∀ c ∈ v, q c = false) → v ∈ bs := by
    intro t
    induction t with
    | nil => exact ⟨[], [], [], [], rfl, rfl, fun _ => rfl, by simp⟩
    | cons c t ih =>
      obtain ⟨a, as, b, bs, ha, hb, hfirst, hrest⟩ := ih
      by_cases hp : p c = true
      · refine ⟨[], a :: as, [], b :: bs, by simp [pieces, hp, ha], by simp [pieces, h c hp, hb],
          fun _ => rfl, fun v hv hvq => ?_⟩
        rcases List.mem_cons.1 hv with rfl | hv
        · exact List.mem_cons.2 (.inl (hfirst hvq).symm)
        · exact List.mem_cons_of_mem b (hrest v hv hvq)
      by_cases hc : q c = true
      · refine ⟨c :: a, as, [], b :: bs, by simp [pieces, hp, ha, consHead],
          by simp [pieces, hc, hb], fun hn => ?_, fun v hv hvq => ?_⟩
        · exact absurd hc (by simp [hn c List.mem_cons_self])
        · exact List.mem_cons_of_mem b (hrest v hv hvq)
      · refine ⟨c :: a, as, c :: b, bs, by simp [pieces, hp, ha, consHead],
          by simp [pieces, hc, hb, consHead], fun hn => ?_, hrest⟩
        rw [hfirst fun d hd => hn d (List.mem_cons_of_mem c hd)]
  obtain ⟨a, as, b, bs, ha, hb, hfirst, hrest⟩ := hall t
  rw [ha] at hw
  rw [hb]
  rcases List.mem_cons.1 hw with rfl | hw
  · exact List.mem_cons.2 (.inl (hfirst hq).symm)
  · exact List.mem_cons_of_mem b (hrest w hw hq)

end Text

namespace Statement

/-- The word `delimiter` does not occur in the text, in upper or lower case: it is none of the runs
of letters, digits, underscores and dollar signs. -/
def Undirected (t : Text) : Prop :=
  ∀ w ∈ Text.pieces (fun c => !Token.continuesWord c) t, Text.same w "delimiter" = false

instance (t : Text) : Decidable (Undirected t) := inferInstanceAs (Decidable (∀ w ∈ _, _))

theorem undirected_append_cons {c : Char} (hc : Token.continuesWord c = false) {u v : Text} :
    Undirected (u ++ c :: v) ↔ Undirected u ∧ Undirected v := by
  have hpieces := @Text.pieces_append_cons (fun c => !Token.continuesWord c) c (by simp [hc]) u v
  simp only [Undirected, hpieces, List.mem_append, or_imp, forall_and]

theorem continuesWord_of_isBlank {c : Char} (h : Text.isBlank c = true) :
    Token.continuesWord c = false := by
  by_contra hc
  rw [Bool.not_eq_false] at hc
  exact absurd h (by simp [Token.isBlank_of_continuesWord hc])

/-- Letters and digits are all that a word of the same letters has. -/
theorem continuesWord_of_same {w : Text} (h : Text.same w "delimiter" = true) :
    ∀ c ∈ w, Token.continuesWord c = true := by
  intro c hc
  have hletters : ∀ d ∈ Text.lowerAscii "delimiter", Token.continuesWord d = true :=
    List.all_eq_true.1 (by decide)
  have hlower : ∀ d : Char, Token.continuesWord d.toLower = Token.continuesWord d :=
    Text.apply_toLower Token.continuesWord (by decide +kernel)
  rw [← hlower c]
  refine hletters _ ?_
  rw [← eq_of_beq h]
  exact List.mem_map_of_mem hc

theorem Undirected.directive? {line : Text} (h : Undirected line) : directive? line = none := by
  refine directive?_eq_none fun w hw => ?_
  by_contra hs
  rw [Bool.not_eq_false] at hs
  have hword := continuesWord_of_same hs
  have hblank : ∀ c, Text.isBlank c = true → (!Token.continuesWord c) = true := fun c hc => by
    rw [continuesWord_of_isBlank hc, Bool.not_false]
  have hmem : w ∈ Text.pieces (fun c => !Token.continuesWord c) line :=
    Text.mem_pieces_of_finer hblank (List.mem_filter.1 hw).1 fun c hc => by simp [hword c hc]
  exact Bool.false_ne_true ((h w hmem).symm.trans hs)

private theorem Undirected.lineFeeds {t : Text} (h : Undirected t) : Undirected (lineFeeds t) := by
  obtain ⟨p, ps, qs, ht, hf, he⟩ :=
    @pieces_lineFeeds (fun c => !Token.continuesWord c) (by decide) (by decide) t
  intro w hw
  rw [hf] at hw
  rw [Undirected, ht] at h
  rcases List.mem_cons.1 hw with rfl | hw
  · exact h w List.mem_cons_self
  · by_cases hnil : w = []
    · rw [hnil]
      decide
    · have hmem : w ∈ ps.filter (!·.isEmpty) := by
        rw [he]
        exact List.mem_filter.2 ⟨hw, by simpa using hnil⟩
      exact h w (List.mem_cons_of_mem p (List.mem_filter.1 hmem).1)

/-- A part of a line of a script without directives. -/
structure Calm (t : Text) : Prop where
  not_newline : '\n' ∉ t
  not_return : '\r' ∉ t
  undirected : Undirected t

theorem Calm.of_append_cons {c : Char} (hc : Token.continuesWord c = false) {u v : Text}
    (h : Calm (u ++ c :: v)) : Calm u ∧ Calm v := by
  obtain ⟨hn, hr, hd⟩ := h
  obtain ⟨hu, hv⟩ := (undirected_append_cons hc).1 hd
  simp only [List.mem_append, List.mem_cons, not_or] at hn hr
  exact ⟨⟨hn.1, hr.1, hu⟩, ⟨hn.2.2, hr.2.2, hv⟩⟩

theorem Calm.of_append_blank {t b : Text} (h : Calm (t ++ b)) (hb : Text.blank b = true) :
    Calm t := by
  cases b with
  | nil => rwa [List.append_nil] at h
  | cons c b =>
    have hc : Text.isBlank c = true ∧ Text.blank b = true := by simpa [Text.blank] using hb
    exact (h.of_append_cons (continuesWord_of_isBlank hc.1)).1

theorem Calm.of_blank_append {t b : Text} (h : Calm (b ++ t)) (hb : Text.blank b = true) :
    Calm t := by
  induction b with
  | nil => exact h
  | cons c b ih =>
    have hc : Text.isBlank c = true ∧ Text.blank b = true := by simpa [Text.blank] using hb
    exact ih (Calm.of_append_cons (u := []) (continuesWord_of_isBlank hc.1) h).2 hc.2

theorem calm_nil : Calm [] := ⟨by simp, by simp, by decide⟩

private theorem not_return_lineFeeds (t : Text) : '\r' ∉ lineFeeds t := by
  fun_induction lineFeeds t with
  | case1 => simp
  | case2 cs ih => simpa using ih
  | case3 cs _ ih => simpa using ih
  | case4 c cs _ hc ih =>
    rw [List.mem_cons, not_or]
    exact ⟨fun h => hc h.symm, ih⟩

theorem calm_lines {script : Text} (h : Undirected script) : ∀ l ∈ lines script, Calm l := by
  intro l hl
  have hpiece : l ∈ Text.pieces (· == '\n') (lineFeeds script) := by
    rw [lines] at hl
    split at hl
    · exact List.dropLast_subset _ hl
    · exact hl
  have hreturn : ∀ u v : Text, '\r' ∉ u ++ '\n' :: v → '\r' ∉ u ∧ '\r' ∉ v := by
    intro u v h
    simp only [List.mem_append, List.mem_cons, not_or] at h
    exact ⟨h.1, h.2.2⟩
  have hdirected : ∀ u v : Text, Undirected (u ++ '\n' :: v) → Undirected u ∧ Undirected v :=
    fun u v => (undirected_append_cons (by decide)).1
  change l ∈ linesOf (lineFeeds script) at hl
  exact ⟨fun hn => absurd (Text.eq_false_of_mem_pieces hpiece _ hn) (by simp),
    forall_linesOf (p := fun u => '\r' ∉ u) hreturn (not_return_lineFeeds script) l hl,
    forall_linesOf hdirected h.lineFeeds l hl⟩

/-- The splitter takes the line as it is, `quote` being open before it and `quote'` behind it. -/
inductive Whole : Option Char → Text → Option Char → Prop
  | nil (quote : Option Char) : Whole quote [] quote
  | escape {q c d : Char} {t : Text} {quote' : Option Char} (he : Token.escapes q c = true)
      (h : Whole (some q) t quote') : Whole (some q) (c :: d :: t) quote'
  | escape_last {q c : Char} (he : Token.escapes q c = true) : Whole (some q) [c] (some q)
  | inside {q c : Char} {t : Text} {quote' : Option Char} (he : Token.escapes q c = false)
      (h : Whole (if c = q then none else some q) t quote') : Whole (some q) (c :: t) quote'
  | quote {c : Char} {t : Text} {quote' : Option Char} (hc : Token.isQuote c = true)
      (h : Whole (some c) t quote') : Whole none (c :: t) quote'
  | char {c : Char} {t : Text} {quote' : Option Char} (hc : Token.isQuote c = false)
      (hs : c ≠ ';') (hd : c = '-' → t.head? ≠ some '-') (h : Whole none t quote') :
      Whole none (c :: t) quote'

/-- Only a quote can be open. -/
def Proper (quote : Option Char) : Prop := ∀ q ∈ quote, Token.isQuote q = true

private theorem isQuote_of_isBlank {c : Char} (h : Text.isBlank c = true) :
    Token.isQuote c = false := by
  by_contra hq
  simp only [Token.isQuote, Bool.not_eq_false, Bool.or_eq_true, beq_iff_eq] at hq
  rcases hq with (rfl | rfl) | rfl <;> exact absurd h (by decide)

section
variable {quote quote' : Option Char} {b t u : Text} {c q : Char}

private theorem prepend_whole : Cut.prepend b ⟨[], t, quote⟩ = ⟨[], b ++ t, quote⟩ := rfl

theorem Whole.cut (h : Whole quote t quote') : cut semicolon quote t = ⟨[], t, quote'⟩ := by
  induction h with
  | nil => exact cut_nil
  | escape he _ ih =>
    rw [Statement.cut, if_pos he]
    exact congrArg _ ih
  | escape_last he =>
    rw [Statement.cut, if_pos he]
    exact congrArg _ cut_nil
  | inside he _ ih => rw [Statement.cut, if_neg (by simp [he]), ih, prepend_whole]; rfl
  | quote hc _ ih => rw [Statement.cut, if_pos hc, ih, prepend_whole]; rfl
  | char hc hs hd _ ih =>
    rw [Statement.cut, if_neg (by simp [hc]), if_neg fun h => hd h.1 h.2, if_neg, ih,
      prepend_whole]
    · rfl
    · simpa using Ne.symm hs

/-- A terminator behind a whole line cuts it there. -/
theorem Whole.cut_semicolon (h : Whole quote t none) :
    Statement.cut semicolon quote (t ++ [';']) = ⟨[t], [], none⟩ := by
  generalize hq : none = quote' at h
  induction h with
  | nil =>
    subst hq
    rw [List.nil_append, Statement.cut]
    simp [Token.isQuote, cut_nil]
  | escape he _ ih =>
    rw [List.cons_append, List.cons_append, Statement.cut, if_pos he]
    exact congrArg _ (ih hq)
  | escape_last => cases hq
  | inside he _ ih =>
    rw [List.cons_append, Statement.cut, if_neg (by simp [he]), ih hq]
    rfl
  | quote hc _ ih =>
    rw [List.cons_append, Statement.cut, if_pos hc, ih hq]
    rfl
  | @char c t _ hc hs hd _ ih =>
    have hnext : ¬ (c = '-' ∧ (t ++ [';']).head? = some '-') := by
      rintro ⟨rfl, h⟩
      cases t with
      | nil => simp at h
      | cons d t => exact hd rfl h
    rw [List.cons_append, Statement.cut, if_neg (by simp [hc]), if_neg hnext, if_neg, ih hq]
    · rfl
    · simpa using Ne.symm hs

theorem Whole.proper (h : Whole quote t quote') (hp : Proper quote) : Proper quote' := by
  induction h with
  | nil => exact hp
  | escape _ _ ih => exact ih hp
  | escape_last => exact hp
  | inside _ _ ih =>
    refine ih ?_
    split
    · simp [Proper]
    · exact hp
  | quote hc _ ih => exact ih (by simpa [Proper] using hc)
  | char _ _ _ _ ih => exact ih (by simp [Proper])

/-- Blanks open no quote and close none. -/
theorem Whole.quote_eq (h : Whole quote b quote') (hb : Text.blank b = true) (hp : Proper quote) :
    quote' = quote := by
  induction h with
  | nil => rfl
  | escape _ _ ih => exact ih (by simp_all [Text.blank]) hp
  | escape_last => rfl
  | @inside q c t _ _ _ ih =>
    have hc : Text.isBlank c = true ∧ Text.blank t = true := by simpa [Text.blank] using hb
    have hne : c ≠ q := by
      rintro rfl
      exact absurd (hp c rfl) (by simp [isQuote_of_isBlank hc.1])
    rw [if_neg hne] at ih
    exact ih hc.2 hp
  | @quote c _ _ hc =>
    have : Text.isBlank c = true := by simp_all [Text.blank]
    exact absurd hc (by simp [isQuote_of_isBlank this])
  | char _ _ _ _ ih => exact ih (by simp_all [Text.blank]) hp

/-- What a whole line begins with is whole. What follows it is whole but for a character that was
escaped. -/
theorem Whole.of_append (h : Whole quote (t ++ u) quote') :
    ∃ quote₁ v, Whole quote t quote₁ ∧ v <:+ u ∧ Whole quote₁ v quote' := by
  induction hn : t.length using Nat.strongRecOn generalizing t quote with
  | ind n ih =>
    cases t with
    | nil => exact ⟨_, u, .nil _, List.suffix_refl u, h⟩
    | cons c t =>
      have hlen : t.length < n := by simp [← hn]
      rw [List.cons_append] at h
      generalize hw : t ++ u = w at h
      cases h with
      | escape he h =>
        cases t with
        | nil =>
          subst hw
          exact ⟨_, _, .escape_last he, List.suffix_cons _ _, h⟩
        | cons d t =>
          obtain ⟨rfl, rfl⟩ := List.cons.inj hw
          obtain ⟨quote₁, v, ht, hv, hrest⟩ := ih t.length (Nat.lt_of_succ_lt hlen) h rfl
          exact ⟨quote₁, v, .escape he ht, hv, hrest⟩
      | escape_last he =>
        obtain ⟨rfl, rfl⟩ := List.append_eq_nil_iff.1 hw
        exact ⟨_, [], .escape_last he, List.suffix_refl _, .nil _⟩
      | inside he h =>
        subst hw
        obtain ⟨quote₁, v, ht, hv, hrest⟩ := ih t.length hlen h rfl
        exact ⟨quote₁, v, .inside he ht, hv, hrest⟩
      | quote hc h =>
        subst hw
        obtain ⟨quote₁, v, ht, hv, hrest⟩ := ih t.length hlen h rfl
        exact ⟨quote₁, v, .quote hc ht, hv, hrest⟩
      | char hc hs hd h =>
        subst hw
        obtain ⟨quote₁, v, ht, hv, hrest⟩ := ih t.length hlen h rfl
        refine ⟨quote₁, v, .char hc hs (fun hc ht => hd hc ?_) ht, hv, hrest⟩
        cases t with
        | nil => simp at ht
        | cons d t => exact ht

theorem Whole.of_append_blank (h : Whole quote (t ++ b) none) (hb : Text.blank b = true)
    (hp : Proper quote) : Whole quote t none := by
  obtain ⟨quote₁, v, ht, hv, hrest⟩ := h.of_append
  have hblank : Text.blank v = true := by
    rw [Text.blank, List.all_eq_true] at hb ⊢
    exact fun c hc => hb c (hv.mem hc)
  rwa [← hrest.quote_eq hblank (ht.proper hp)] at ht

theorem Whole.of_blank_append (h : Whole none (b ++ t) quote') (hb : Text.blank b = true) :
    Whole none t quote' := by
  induction b with
  | nil => exact h
  | cons c b ih =>
    have hc : Text.isBlank c = true ∧ Text.blank b = true := by simpa [Text.blank] using hb
    cases h with
    | quote hq => exact absurd hq (by simp [isQuote_of_isBlank hc.1])
    | char _ _ _ h => exact ih h hc.2

/-- No whole line is a comment. -/
theorem Whole.not_comment (h : Whole none (b ++ c :: t) quote') (hb : Text.blank b = true) :
    ¬ (c = '-' ∧ t.head? = some '-') := by
  rintro ⟨rfl, ht⟩
  cases h.of_blank_append hb with
  | quote hc => exact absurd hc (by decide)
  | char _ _ hd => exact hd rfl ht

/-- A line is whole up to its end or its comment, or up to its first terminator. -/
def Parted (quote : Option Char) (line : Text) : Prop :=
  (∃ u v quote', line = u ++ v ∧ (v = [] ∨ ∃ w, v = '-' :: '-' :: w) ∧ Whole quote u quote' ∧
      Statement.cut semicolon quote line = ⟨[], u, quote'⟩) ∨
    ∃ p v, line = p ++ ';' :: v ∧ Whole quote p none ∧
      Statement.cut semicolon quote line =
        { Statement.cut semicolon none v with
          closed := p :: (Statement.cut semicolon none v).closed }

private theorem Parted.prepend {line : Text} (h : Parted quote' line)
    (hcut : Statement.cut semicolon quote (b ++ line) =
      (Statement.cut semicolon quote' line).prepend b)
    (hwhole : ∀ u quote'', u <+: line → Whole quote' u quote'' → Whole quote (b ++ u) quote'') :
    Parted quote (b ++ line) := by
  obtain ⟨u, v, quote'', hline, hv, hu, hk⟩ | ⟨p, v, hline, hp, hk⟩ := h
  · refine .inl ⟨b ++ u, v, quote'', by rw [hline, List.append_assoc], hv,
      hwhole u _ ⟨v, hline.symm⟩ hu, ?_⟩
    rw [hcut, hk, prepend_whole]
  · refine .inr ⟨b ++ p, v, by rw [hline, List.append_assoc], hwhole p _ ⟨_, hline.symm⟩ hp, ?_⟩
    rw [hcut, hk]
    rfl

theorem parted (quote : Option Char) (line : Text) : Parted quote line := by
  fun_induction Statement.cut semicolon quote line with
  | case1 quote => exact .inl ⟨[], [], quote, rfl, .inl rfl, .nil _, cut_nil⟩
  | case2 q c cs he ih =>
    cases cs with
    | nil => exact .inl ⟨[c], [], _, rfl, .inl rfl, .escape_last he, (Whole.escape_last he).cut⟩
    | cons d cs =>
      refine Parted.prepend (b := [c, d]) ih ?_ fun u _ _ hu => .escape he hu
      rw [List.cons_append, Statement.cut, if_pos he]
      rfl
  | case3 q c cs he ih =>
    have he : Token.escapes q c = false := by simpa using he
    refine Parted.prepend (b := [c]) ih ?_ fun u _ _ hu => .inside he hu
    rw [List.cons_append, Statement.cut, if_neg (by simp [he])]
    rfl
  | case4 c cs hq ih =>
    refine Parted.prepend (b := [c]) ih ?_ fun u _ _ hu => .quote hq hu
    rw [List.cons_append, Statement.cut, if_pos hq]
    rfl
  | case5 c cs hq hd =>
    obtain ⟨rfl, hd⟩ := hd
    obtain ⟨w, rfl⟩ := List.head?_eq_some_iff.1 hd
    refine .inl ⟨[], '-' :: '-' :: w, none, rfl, .inr ⟨w, rfl⟩, .nil _, ?_⟩
    rw [Statement.cut]
    simp [Token.isQuote]
  | case6 c cs hq hd ht k ih =>
    obtain rfl : ';' = c := by simpa using ht
    refine .inr ⟨[], cs, rfl, .nil _, ?_⟩
    rw [Statement.cut]
    simp [Token.isQuote]
  | case7 c cs hq hd ht ih =>
    have hs : c ≠ ';' := fun h => ht (by simp [h])
    refine Parted.prepend (b := [c]) ih ?_ fun u _ hprefix hu =>
      .char (by simpa using hq) hs (fun hc hhead => hd ⟨hc, ?_⟩) hu
    · rw [List.singleton_append, Statement.cut, if_neg hq, if_neg hd, if_neg ht]
    · obtain ⟨v, rfl⟩ := hprefix
      cases u with
      | nil => simp at hhead
      | cons d u => exact hhead

end

end Statement

end TableDialects
