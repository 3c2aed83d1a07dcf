import TableDialects.Token.Group
import TableDialects.DefaultValue.Normal
import TableDialects.Proofs.Text.Blank
import TableDialects.Proofs.Token.Spelling

/-!
# Phrases

Keywords, literals and lists in parentheses, as lexemes that stand apart from what is around them.
-/
namespace TableDialects

/-- A text in which no backslash changes the meaning of a character and no carriage return
becomes a line feed. -/
structure Text.Plain (t : Text) : Prop where
  no_backslash : '\\' ∉ t
  no_return : '\r' ∉ t

namespace Token

theorem isBlank_of_continuesWord {c : Char} (h : continuesWord c = true) :
    Text.isBlank c = false := by
  have hall : ∀ n ∈ Text.blanks, continuesWord (Char.ofNat n) = false := by decide +kernel
  by_contra hb
  have hc := hall c.toNat (Text.mem_blanks (by simpa using hb))
  rw [Char.ofNat_toNat, h] at hc
  exact absurd hc (by simp)

theorem isWord_self (w : String) : (Token.word w.toList).isWord w = true := by
  simp [isWord, Text.same]

/-- A word that is one keyword answers the test for another as the keywords compare. -/
theorem isWord_of_isWord {t : Token} {v w : String} (h : t.isWord v = true) :
    t.isWord w = Text.same v.toList w.toList := by
  cases t with
  | word name =>
    simp only [isWord, Text.same, beq_iff_eq] at h ⊢
    rw [h]
  | _ => exact absurd h (by simp [isWord])

theorem isOneOf_eq_any (t : Token) (ws : List String) :
    t.isOneOf ws = ws.any fun w => t.isWord w := by
  cases t <;> simp [isOneOf, isWord, Text.oneOf]

theorem isOneOf_of_isWord {t : Token} {v : String} (h : t.isWord v = true) (ws : List String) :
    t.isOneOf ws = Text.oneOf ws v := by
  simp only [isOneOf_eq_any, Text.oneOf, isWord_of_isWord h]

private theorem breaks_append {u v : Text} (hu : breaks u = true) (hv : breaks v = true) :
    breaks (u ++ v) = true := by
  cases u with
  | nil => exact hv
  | cons c u => exact hu

/-- The depth after the tokens. There is none if they close more than they open or have a comma
outside all parentheses. -/
def depthAfter (depth : Nat) : List Token → Option Nat
  | [] => some depth
  | .openParen :: ts => depthAfter (depth + 1) ts
  | .closeParen :: ts => if depth = 0 then none else depthAfter (depth - 1) ts
  | .comma :: ts => if depth = 0 then none else depthAfter depth ts
  | _ :: ts => depthAfter depth ts

/-- The tokens leave the depth as it is, and no comma divides them. -/
def Enclosed (ts : List Token) : Prop := depthAfter 0 ts = some 0

section
variable {d d' : Nat} {ts us : List Token}

theorem depthAfter_append (h : depthAfter d ts = some d') :
    depthAfter d (ts ++ us) = depthAfter d' us := by
  fun_induction depthAfter d ts with
  | case1 => simp [← Option.some.inj h]
  | case2 d ts ih => exact ih h
  | case3 => simp at h
  | case4 d ts hd ih => simpa [depthAfter, hd] using ih h
  | case5 => simp at h
  | case6 d ts hd ih => simpa [depthAfter, hd] using ih h
  | case7 d t ts ho hc hm ih =>
    rw [List.cons_append, depthAfter]
    · exact ih h
    all_goals assumption

/-- Parentheses that are open around the tokens stay open. -/
theorem depthAfter_add (h : depthAfter d ts = some d') (k : Nat) :
    depthAfter (d + k) ts = some (d' + k) := by
  fun_induction depthAfter d ts with
  | case1 => simp [depthAfter, Option.some.inj h]
  | case2 d ts ih => simpa [depthAfter, Nat.add_right_comm] using ih h
  | case3 => simp at h
  | case4 d ts hd ih =>
    have : d + k - 1 = d - 1 + k := by omega
    simpa [depthAfter, hd, this] using ih h
  | case5 => simp at h
  | case6 d ts hd ih => simpa [depthAfter, hd] using ih h
  | case7 d t ts ho hc hm ih =>
    rw [depthAfter]
    · exact ih h
    all_goals assumption

/-- The parenthesis that closes the group is looked for behind the tokens. -/
theorem closing?_append (h : depthAfter d ts = some d') (k : Nat) :
    closing? (d + k + 1) (ts ++ us) = (closing? (d' + k + 1) us).map (· + ts.length) := by
  fun_induction depthAfter d ts with
  | case1 => simp [Option.some.inj h]
  | case2 d ts ih =>
    have := ih h
    rw [Nat.add_right_comm d 1 k] at this
    rw [List.cons_append, closing?, this]
    simp [Option.map_map, Function.comp_def, Nat.add_assoc]
  | case3 => simp at h
  | case4 d ts hd ih =>
    have hdk : d + k + 1 - 1 = d - 1 + k + 1 := by omega
    have hne : ¬ d + k + 1 ≤ 1 := by omega
    rw [List.cons_append, closing?, if_neg hne, hdk, ih h]
    simp [Option.map_map, Function.comp_def, Nat.add_assoc]
  | case5 => simp at h
  | case6 d ts hd ih =>
    rw [List.cons_append, closing?, ih h]
    · simp [Option.map_map, Function.comp_def, Nat.add_assoc]
    all_goals simp
  | case7 d t ts ho hc hm ih =>
    rw [List.cons_append, closing?, ih h]
    · simp [Option.map_map, Function.comp_def, Nat.add_assoc]
    all_goals assumption

theorem Enclosed.append (h : Enclosed ts) (h' : Enclosed us) : Enclosed (ts ++ us) :=
  (depthAfter_append h).trans h'

/-- Whether a token neither opens nor closes a group nor divides a list. -/
def isInner (t : Token) : Bool := t != .openParen && t != .closeParen && t != .comma

private theorem enclosed_of_forall (h : ∀ t ∈ ts, isInner t = true) : Enclosed ts := by
  induction ts with
  | nil => rfl
  | cons t ts ih =>
    have ht := h t List.mem_cons_self
    simp only [isInner, Bool.and_eq_true, bne_iff_ne] at ht
    rw [Enclosed, depthAfter]
    · exact ih fun u hu => h u (List.mem_cons_of_mem t hu)
    · exact fun he => ht.1.1 he
    · exact fun he => ht.1.2 he
    · exact fun he => ht.2 he

end

end Token

namespace Lexeme

/-- Lexemes that are read back as they stand, whatever stands around them between breaks. -/
structure Apart (ls : List Lexeme) : Prop where
  clear : Clear ls []
  breaks : Token.breaks (source ls) = true

section
variable {as bs ls : List Lexeme} {r : Text}

theorem apart_nil : Apart [] := ⟨trivial, rfl⟩

theorem clear_append_apart (ha : Clear as []) (hb : Apart bs) : Clear (as ++ bs) [] :=
  clear_append.2 ⟨ha.congr (by simpa using hb.breaks), hb.clear⟩

theorem Apart.append (ha : Apart as) (hb : Apart bs) : Apart (as ++ bs) where
  clear := clear_append_apart ha.clear hb
  breaks := by
    rw [source_append]
    exact Token.breaks_append ha.breaks hb.breaks

theorem apart_singleton {l : Lexeme} (hg : ∀ c ∈ l.gap, isSeparator c = true) (hne : l.gap ≠ [])
    (hs : startsToken l.text = true) (hw : Token.Written [] l.token l.text) : Apart [l] where
  clear := ⟨⟨hg, by simpa using hs, by simpa using hw⟩, trivial⟩
  breaks := by
    obtain ⟨c, g, h⟩ := List.exists_cons_of_ne_nil hne
    simp [h, Token.breaks, Token.isBreak, hg c (by simp [h])]

end

/-- A text that the lexer takes for one bare word. -/
def IsWord (w : Text) : Prop :=
  (w.head?.any Token.isWordStart && w.tail.all Token.continuesWord) = true

instance (w : Text) : Decidable (IsWord w) := inferInstanceAs (Decidable (_ = true))

theorem IsWord.exists_cons {w : Text} (h : IsWord w) :
    ∃ c cs, w = c :: cs ∧ Token.isWordStart c = true ∧ ∀ d ∈ cs, Token.continuesWord d = true := by
  cases w with
  | nil => simp [IsWord] at h
  | cons c cs => exact ⟨c, cs, rfl, by simpa [IsWord] using h⟩

theorem IsWord.written {w : Text} (h : IsWord w) {r : Text}
    (hr : r.takeWhile Token.continuesWord = []) : Token.Written r (.word w) w := by
  obtain ⟨c, cs, rfl, hc, hcs⟩ := h.exists_cons
  exact .word hc hcs hr

theorem startsToken_cons {c : Char} (hs : isSeparator c = false) (hd : c ≠ '-') (hb : c ≠ '/')
    (t : Text) : startsToken (c :: t) = true := by
  simp [startsToken, hs, hd, hb]

theorem IsWord.startsToken {w : Text} (h : IsWord w) (r : Text) :
    Lexeme.startsToken (w ++ r) = true := by
  obtain ⟨c, cs, rfl, hc, -⟩ := h.exists_cons
  have hne : ∀ d, Token.isWordStart d = false → c ≠ d := by
    rintro d hd rfl
    simp [hc] at hd
  refine startsToken_cons ?_ (hne _ (by decide)) (hne _ (by decide)) _
  by_contra hs
  simp only [isSeparator, Bool.not_eq_false, Bool.or_eq_true, beq_iff_eq] at hs
  rcases hs with ((h | h) | h) | h <;> exact hne _ (by decide) h

/-- A word after a space. -/
def keyword (w : Text) : Lexeme := ⟨[' '], w, .word w⟩

theorem apart_keyword {w : Text} (h : IsWord w) : Apart [keyword w] :=
  apart_singleton (by simp [keyword, isSeparator]) (by simp [keyword])
    (by simpa [keyword] using h.startsToken []) (h.written rfl)

theorem apart_keywords {ws : List Text} (h : ∀ w ∈ ws, IsWord w) : Apart (ws.map keyword) := by
  induction ws with
  | nil => exact apart_nil
  | cons w ws ih =>
    exact (apart_keyword (h w List.mem_cons_self)).append
      (ih fun v hv => h v (List.mem_cons_of_mem w hv))

theorem source_keywords (ws : List Text) : source (ws.map keyword) = ws.flatMap (' ' :: ·) := by
  induction ws with
  | nil => rfl
  | cons w ws ih => simp [keyword, ih]

theorem enclosed_keywords (ws : List Text) :
    Token.Enclosed ((ws.map keyword).map (·.token)) := by
  refine Token.enclosed_of_forall ?_
  simp [keyword, Token.isInner]

theorem enclosed_singleton {l : Lexeme} (h : Token.isInner l.token = true) :
    Token.Enclosed ([l].map (·.token)) :=
  Token.enclosed_of_forall (by simpa using h)

theorem enclosed_singletons {ls : List Lexeme} (h : ∀ l ∈ ls, Token.isInner l.token = true) :
    ∀ e ∈ ls.map fun l => [l], Token.Enclosed (e.map (·.token)) := by
  intro e he
  obtain ⟨l, hl, rfl⟩ := List.mem_map.1 he
  exact enclosed_singleton (h l hl)

/-- A text in single quotes is read back, as long as a backslash does not change its meaning. -/
theorem written_quoteLiteral {v r : Text} (hv : '\\' ∉ v) (hr : r.head? ≠ some '\'') :
    Token.Written r (.quoted '\'' v) (quoteLiteral v) :=
  .literal (q := '\'') rfl (Token.quotes_doubled (.inr hv)) hr

def comma : Lexeme := ⟨[], [','], .comma⟩

/-- Entries with commas between them. -/
def entries (es : List (List Lexeme)) : List Lexeme := [comma].intercalate es

theorem entries_cons_cons (e f : List Lexeme) (es : List (List Lexeme)) :
    entries (e :: f :: es) = e ++ comma :: entries (f :: es) := by
  simp [entries]

theorem source_entries (es : List (List Lexeme)) :
    source (entries es) = Text.join [','] (es.map source) := by
  induction es with
  | nil => rfl
  | cons e es ih =>
    cases es with
    | nil => simp [entries, Text.join]
    | cons f es =>
      rw [entries_cons_cons, source_append, source_cons, ih]
      simp [Text.join, comma]

theorem clearOf_delimiter {g : Text} (hg : ∀ c ∈ g, isSeparator c = true) {c : Char} {k : Token}
    (h : (c, k) ∈ [('(', Token.openParen), (')', .closeParen), (',', .comma)]) (r : Text) :
    ClearOf ⟨g, [c], k⟩ r := by
  simp only [List.mem_cons, Prod.mk.injEq, List.not_mem_nil, or_false] at h
  rcases h with ⟨rfl, rfl⟩ | ⟨rfl, rfl⟩ | ⟨rfl, rfl⟩
  · exact ⟨hg, startsToken_cons (by decide) (by decide) (by decide) r, .openParen⟩
  · exact ⟨hg, startsToken_cons (by decide) (by decide) (by decide) r, .closeParen⟩
  · exact ⟨hg, startsToken_cons (by decide) (by decide) (by decide) r, .comma⟩

theorem clear_entries {es : List (List Lexeme)} (h : ∀ e ∈ es, Clear e []) :
    Clear (entries es) [] := by
  induction es with
  | nil => trivial
  | cons e es ih =>
    have he := h e List.mem_cons_self
    cases es with
    | nil => simpa [entries] using he
    | cons f es =>
      rw [entries_cons_cons]
      refine clear_append.2 ⟨he.congr (by simp [comma, Token.breaks, Token.isBreak]), ?_⟩
      exact ⟨clearOf_delimiter (by simp) (by simp) _,
        ih fun d hd => h d (List.mem_cons_of_mem e hd)⟩

private theorem depthAfter_entries {es : List (List Lexeme)}
    (h : ∀ e ∈ es, Token.Enclosed (e.map (·.token))) (k : Nat) :
    Token.depthAfter (k + 1) ((entries es).map (·.token)) = some (k + 1) := by
  induction es with
  | nil => rfl
  | cons e es ih =>
    have he := Token.depthAfter_add (h e List.mem_cons_self) (k + 1)
    rw [Nat.zero_add] at he
    cases es with
    | nil => simpa [entries] using he
    | cons f es =>
      rw [entries_cons_cons, List.map_append, Token.depthAfter_append he]
      exact ih fun d hd => h d (List.mem_cons_of_mem e hd)

private theorem closing?_entries {es : List (List Lexeme)}
    (h : ∀ e ∈ es, Token.Enclosed (e.map (·.token))) (us : List Token) :
    Token.closing? 1 ((entries es).map (·.token) ++ us) =
      (Token.closing? 1 us).map (· + (entries es).length) := by
  induction es with
  | nil => simp [entries]
  | cons e es ih =>
    have he := @Token.closing?_append 0 0 _ us (h e List.mem_cons_self) 0
    have hrec := ih fun d hd => h d (List.mem_cons_of_mem e hd)
    cases es with
    | nil => simpa [entries] using he
    | cons f es =>
      have he := @Token.closing?_append 0 0 _ (.comma :: ((entries (f :: es)).map (·.token) ++ us))
        (h e List.mem_cons_self) 0
      simp only [Nat.zero_add] at he
      rw [entries_cons_cons, List.map_append, List.append_assoc, List.map_cons, List.cons_append]
      change Token.closing? 1 (e.map (·.token) ++ .comma :: (_ ++ us)) = _
      rw [he, Token.closing?, hrec]
      · simp [Option.map_map, Function.comp_def]
        congr 1
        funext n
        omega
      all_goals simp

/-- A list in parentheses, with the gaps in front of them. -/
def group (g : Text) (es : List (List Lexeme)) (g' : Text) : List Lexeme :=
  ⟨g, ['('], .openParen⟩ :: (entries es ++ [⟨g', [')'], .closeParen⟩])

section
variable {g g' : Text} {es : List (List Lexeme)}

theorem source_group :
    source (group g es g') = g ++ '(' :: (Text.join [','] (es.map source) ++ (g' ++ [')'])) := by
  simp [group, source_entries]

private theorem clear_group (hg : ∀ c ∈ g, isSeparator c = true)
    (hg' : ∀ c ∈ g', isSeparator c = true)
    (h : ∀ e ∈ es, Clear e []) : Clear (group g es g') [] := by
  refine ⟨clearOf_delimiter hg (by simp) _, clear_append.2 ⟨(clear_entries h).congr ?_, ?_⟩⟩
  · cases g' with
    | nil => simp [Token.breaks, Token.isBreak]
    | cons c g' => simp [Token.breaks, Token.isBreak, hg' c]
  · exact ⟨clearOf_delimiter hg' (by simp) _, trivial⟩

theorem apart_group (hg : ∀ c ∈ g, isSeparator c = true) (hg' : ∀ c ∈ g', isSeparator c = true)
    (h : ∀ e ∈ es, Clear e []) : Apart (group g es g') where
  clear := clear_group hg hg' h
  breaks := by
    rw [source_group]
    cases g with
    | nil => simp [Token.breaks, Token.isBreak]
    | cons c g => simp [Token.breaks, Token.isBreak, hg c]

theorem enclosed_group (h : ∀ e ∈ es, Token.Enclosed (e.map (·.token))) :
    Token.Enclosed ((group g es g').map (·.token)) := by
  have := depthAfter_entries h 0
  simp only [group, List.map_cons, List.map_append, Token.Enclosed, Token.depthAfter, Nat.zero_add]
    at this ⊢
  rw [Token.depthAfter_append this]
  rfl

variable (h : ∀ e ∈ es, Token.Enclosed (e.map (·.token))) (rest : List Lexeme)
include h

theorem groupLength_group : groupLength (group g es g' ++ rest) = (group g es g').length := by
  have := closing?_entries h (.closeParen :: rest.map (·.token))
  simp only [group, groupLength, Token.groupEnd, List.map_cons, List.map_append, List.drop_zero,
    List.cons_append, List.append_assoc, List.nil_append, Token.closing?, Nat.zero_add, this]
  simp

theorem groupInner_group : groupInner (group g es g' ++ rest) = entries es := by
  rw [groupInner, groupLength_group h, List.take_left]
  simp [group]

theorem groupText_group :
    groupText (group g es g' ++ rest) = Text.join [','] (es.map source) ++ g' := by
  rw [groupText, groupInner_group h, groupLength_group h, List.take_left, source_entries]
  simp [group, Option.filter]

theorem leadingGroup_group : leadingGroup (group g es g' ++ rest) = (group g es g').length := by
  rw [leadingGroup, groupLength_group h]
  simp [group]

end

end Lexeme

end TableDialects
