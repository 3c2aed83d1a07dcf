import TableDialects.Proofs.Token.Phrase

/-!
# Rewritten lexemes

Preparation makes one word of a type name of several words, takes the default collation away and
takes names out of backticks. What it does to a source is told lexeme by lexeme.
-/
namespace TableDialects

namespace Lexeme

/-- Whether the lexemes begin with these keywords. -/
def spells : List String → List Lexeme → Bool
  | [], _ => true
  | _ :: _, [] => false
  | w :: ws, l :: ls => l.token.isWord w && spells ws ls

/-- The type names of several words, and the one word that stands for each. -/
def typePhrases : List (List String × String) :=
  [(["timestamp", "with", "time", "zone"], "timestamptz"),
  (["timestamp", "without", "time", "zone"], "timestamp"),
  (["character", "varying"], "varchar")]

def beginsType (ls : List Lexeme) : Bool := typePhrases.any fun p => spells p.1 ls

/-- Whether the default collation stands at the start. -/
def beginsCollation : List Lexeme → Bool
  | collate :: catalog :: point :: name :: _ =>
    collate.token.isWord "collate" && catalog.token.isWord "pg_catalog" &&
      point.token == .punct '.' &&
      match name.token with
      | .quoted '\"' value => Text.same value "default"
      | _ => false
  | _ => false

def beginsPhrase (ls : List Lexeme) : Bool := beginsType ls || beginsCollation ls

theorem beginsPhrase_eq_false {ls : List Lexeme} :
    beginsPhrase ls = false ↔ beginsType ls = false ∧ beginsCollation ls = false := by
  simp [beginsPhrase]

theorem spells_cons {w : String} {ws : List String} {ls : List Lexeme} (h : spells (w :: ws) ls) :
    ∃ l t, ls = l :: t ∧ l.token.isWord w = true ∧ spells ws t = true := by
  cases ls with
  | nil => simp [spells] at h
  | cons l t =>
    rw [spells, Bool.and_eq_true] at h
    exact ⟨l, t, rfl, h⟩

theorem spells_append {ws : List String} {run : List Lexeme} (h : spells ws run)
    (ls : List Lexeme) : spells ws (run ++ ls) = true := by
  induction ws generalizing run with
  | nil => simp [spells]
  | cons w ws ih =>
    obtain ⟨l, t, rfl, hl, ht⟩ := spells_cons h
    rw [List.cons_append, spells, hl, ih ht]
    rfl

/-- Every lexeme of a phrase is one of its keywords. -/
theorem isOneOf_of_spells {ws : List String} {run : List Lexeme} (h : spells ws run)
    (hlen : run.length = ws.length) : ∀ l ∈ run, ∃ w ∈ ws, l.token.isWord w = true := by
  induction ws generalizing run with
  | nil => simp [List.eq_nil_of_length_eq_zero hlen]
  | cons w ws ih =>
    obtain ⟨l, t, rfl, hl, ht⟩ := spells_cons h
    intro m hm
    rcases List.mem_cons.1 hm with rfl | hm
    · exact ⟨w, List.mem_cons_self, hl⟩
    · obtain ⟨v, hv, hw⟩ := ih ht (by simpa using hlen) m hm
      exact ⟨v, List.mem_cons_of_mem w hv, hw⟩

private theorem beginsType_of_spells {p : List String × String} (hp : p ∈ typePhrases)
    {ls : List Lexeme} (h : spells p.1 ls) : beginsType ls = true :=
  List.any_eq_true.2 ⟨p, hp, h⟩

theorem collation_tokens {a b c d : Lexeme} {t : List Lexeme}
    (h : beginsCollation (a :: b :: c :: d :: t)) :
    a.token.isWord "collate" = true ∧ b.token.isWord "pg_catalog" = true ∧ c.token = .punct '.' ∧
      ∃ v, d.token = .quoted '\"' v ∧ Text.same v "default" = true := by
  simp only [beginsCollation, Bool.and_eq_true, beq_iff_eq] at h
  obtain ⟨⟨⟨ha, hb⟩, hc⟩, hd⟩ := h
  split at hd
  · next v hv => exact ⟨ha, hb, hc, v, hv, hd⟩
  · exact absurd hd (by simp)

theorem exists_of_beginsCollation {ls : List Lexeme} (h : beginsCollation ls) :
    ∃ a b c d t, ls = a :: b :: c :: d :: t := by
  unfold beginsCollation at h
  split at h
  · exact ⟨_, _, _, _, _, rfl⟩
  · exact absurd h (by simp)

theorem beginsType_append {ls : List Lexeme} (h : beginsType ls = true) (us : List Lexeme) :
    beginsType (ls ++ us) = true := by
  obtain ⟨p, hp, hspells⟩ := List.any_eq_true.1 h
  exact beginsType_of_spells hp (spells_append hspells us)

theorem beginsCollation_append {ls : List Lexeme} (h : beginsCollation ls = true)
    (us : List Lexeme) : beginsCollation (ls ++ us) = true := by
  obtain ⟨a, b, c, d, t, rfl⟩ := exists_of_beginsCollation h
  exact h

theorem isWord_of_beginsCollation {l : Lexeme} {ls : List Lexeme} (h : beginsCollation (l :: ls)) :
    l.token.isWord "collate" = true := by
  obtain ⟨a, b, c, d, t, ht⟩ := exists_of_beginsCollation h
  rw [ht] at h
  obtain ⟨rfl, -⟩ := List.cons.inj ht
  exact (collation_tokens h).1

/-- A lexeme that stays, although the gap in front of it may change and its backticks may go. -/
structure Kept (G : Text → Text → Prop) (l l' : Lexeme) : Prop where
  gap : G l.gap l'.gap
  token : l'.token = l.token
  text : l'.text = l.text ∨
    IsWord l'.text ∧ l.token = .word l'.text ∧ l.text = '\x60' :: (l'.text ++ ['\x60'])

/-- The first list is rewritten as the second: the phrases are some of `ps`, and a default
collation goes only if `drops` holds. -/
inductive Rewritten (G : Text → Text → Prop) (ps : List (List String × String)) (drops : Prop) :
    List Lexeme → List Lexeme → Prop
  | nil : Rewritten G ps drops [] []
  | keep {l l' : Lexeme} {ls ls' : List Lexeme} (hl : Kept G l l')
      (h : Rewritten G ps drops ls ls') : Rewritten G ps drops (l :: ls) (l' :: ls')
  | type {p : List String × String} {l : Lexeme} {run ls ls' : List Lexeme} {g : Text}
      (hp : p ∈ ps) (hspells : spells p.1 (l :: run) = true)
      (hlen : (l :: run).length = p.1.length) (hg : G l.gap g) (h : Rewritten G ps drops ls ls') :
      Rewritten G ps drops (l :: run ++ ls) (⟨g, p.2.toList, .word p.2.toList⟩ :: ls')
  | collation {a b c d : Lexeme} {ls ls' : List Lexeme} (hd : drops)
      (hbegins : beginsCollation [a, b, c, d] = true) (h : Rewritten G ps drops ls ls') :
      Rewritten G ps drops (a :: b :: c :: d :: ls) ls'

/-- The first list is rewritten as the second by all that preparation does. -/
abbrev Prepared (G : Text → Text → Prop) : List Lexeme → List Lexeme → Prop :=
  Rewritten G typePhrases True

section
variable {G : Text → Text → Prop} {l : Lexeme} {ls ls' : List Lexeme}

theorem Rewritten.append {ps : List (List String × String)} {drops : Prop}
    {as as' : List Lexeme} (h : Rewritten G ps drops as as') (hls : Rewritten G ps drops ls ls') :
    Rewritten G ps drops (as ++ ls) (as' ++ ls') := by
  induction h with
  | nil => exact hls
  | keep hl _ ih => exact .keep hl ih
  | type hp hspells hlen hg _ ih =>
    rw [List.append_assoc]
    exact .type hp hspells hlen hg ih
  | collation hd hbegins _ ih => exact .collation hd hbegins ih

theorem Rewritten.eq_nil (h : Prepared G [] ls') : ls' = [] := by
  generalize hn : [] = xs at h
  cases h with
  | nil => rfl
  | _ => simp at hn

theorem Rewritten.cons_of_not_phrase (h : Prepared G (l :: ls) ls')
    (hn : beginsPhrase (l :: ls) = false) :
    ∃ l' t, ls' = l' :: t ∧ Kept G l l' ∧ Prepared G ls t := by
  rw [beginsPhrase_eq_false] at hn
  generalize hx : l :: ls = xs at h hn
  cases h with
  | nil => simp at hx
  | keep hl h =>
    obtain ⟨rfl, rfl⟩ := List.cons.inj hx
    exact ⟨_, _, rfl, hl, h⟩
  | type hp hspells =>
    rw [beginsType_of_spells hp (spells_append hspells _)] at hn
    exact absurd hn.1 (by simp)
  | collation _ hbegins =>
    exact absurd (hn.2.symm.trans hbegins) (by simp)

end

/-- The words that a phrase begins with or that stand for it. -/
def phraseHeads : List String := ["timestamp", "character", "collate", "timestamptz", "varchar"]

/-- The predicate holds of no word that a phrase begins with or that stands for it. -/
def Foreign (p : Token → Bool) : Prop :=
  ∀ w ∈ phraseHeads, ∀ t : Token, t.isWord w = true → p t = false

theorem foreign_isWord {w : String} (h : ∀ v ∈ phraseHeads, Text.same v.toList w.toList = false) :
    Foreign (·.isWord w) :=
  fun v hv _ ht => (Token.isWord_of_isWord ht).trans (h v hv)

theorem foreign_isOneOf {ws : List String}
    (h : ∀ v ∈ phraseHeads, ∀ w ∈ ws, Text.same v.toList w.toList = false) :
    Foreign (·.isOneOf ws) := by
  intro v hv t ht
  dsimp only
  rw [Token.isOneOf_eq_any, List.any_eq_false]
  intro w hw
  rw [Token.isWord_of_isWord ht, h v hv w hw]
  simp

private theorem head_mem_phraseHeads {p : List String × String} (hp : p ∈ typePhrases) :
    p.2 ∈ phraseHeads ∧ ∃ w ws, p.1 = w :: ws ∧ w ∈ phraseHeads := by
  simp only [typePhrases, List.mem_cons, List.not_mem_nil, or_false] at hp
  rcases hp with rfl | rfl | rfl
  all_goals exact ⟨by decide, _, _, rfl, by decide⟩

theorem beginsPhrase_of_foreign {p : Token → Bool} (hp : Foreign p) {l : Lexeme}
    (hl : p l.token = true) (ls : List Lexeme) : beginsPhrase (l :: ls) = false := by
  rw [beginsPhrase_eq_false]
  constructor
  · by_contra ht
    obtain ⟨q, hq, hspells⟩ := List.any_eq_true.1 (Bool.not_eq_false _ ▸ ht)
    obtain ⟨-, w, ws, hw, hmem⟩ := head_mem_phraseHeads hq
    rw [hw] at hspells
    obtain ⟨m, t, hm, hword, -⟩ := spells_cons hspells
    obtain ⟨rfl, rfl⟩ := List.cons.inj hm
    exact absurd ((hp w hmem _ hword).symm.trans hl) (by simp)
  · by_contra hc
    have ha := isWord_of_beginsCollation (Bool.not_eq_false _ ▸ hc)
    exact absurd ((hp "collate" (by decide) _ ha).symm.trans hl) (by simp)

/-- A predicate on the first token has the same answer after preparation, except in front of a
collation. -/
theorem Rewritten.head_eq {G : Text → Text → Prop} {p : Token → Bool} (hp : Foreign p)
    {ls ls' : List Lexeme} (h : Prepared G ls ls')
    (hc : beginsCollation ls = true → ls'.head?.any (p ·.token) = false) :
    ls'.head?.any (p ·.token) = ls.head?.any (p ·.token) := by
  cases h with
  | nil => rfl
  | keep hl => simp [hl.token]
  | @type q l run _ _ _ hq hspells =>
    obtain ⟨hname, w, ws, hw, hmem⟩ := head_mem_phraseHeads hq
    rw [hw] at hspells
    obtain ⟨m, t, hm, hword, -⟩ := spells_cons hspells
    obtain ⟨rfl, rfl⟩ := List.cons.inj hm
    simp [hp w hmem _ hword, hp q.2 hname _ (Token.isWord_self q.2)]
  | collation _ hbegins =>
    rw [hc hbegins]
    simp [hp "collate" (by decide) _ (isWord_of_beginsCollation hbegins)]

end Lexeme

end TableDialects
