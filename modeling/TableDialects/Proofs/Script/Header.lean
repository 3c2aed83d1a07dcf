import TableDialects.Proofs.Position.Statement
import TableDialects.Proofs.Script.Phrase
import Mathlib.Data.List.Infix

/-!
# Headers of prepared statements

Preparation keeps the header of a table definition, as long as no phrase stands where the header
has a name and no collation within it.
-/
namespace TableDialects

namespace Lexeme

/-- The words in front of the name in a table header. -/
def headerWords : List String :=
  ["CREATE", "TEMPORARY", "TEMP", "UNLOGGED", "GLOBAL", "LOCAL", "TABLE", "IF", "NOT", "EXISTS"]

/-- Whether the token neither goes on with a name or a type nor opens a group. -/
def isNeutral (t : Token) : Bool :=
  t != .openParen && t != .punct '.' &&
    !t.isOneOf ["varying", "precision", "with", "without", "time", "zone"]

/-- No phrase after the lexeme joins a header, and no collation at the lexeme stands in front of
what goes on with a name or a type. -/
structure PlacedAt (l : Lexeme) (ls : List Lexeme) : Prop where
  type : beginsType ls = true → l.token.isOneOf ["TABLE", "EXISTS"] = false ∧ l.token ≠ .punct '.'
  collation : beginsCollation ls = true → l.token.isOneOf headerWords = false ∧ l.token ≠ .punct '.'
  following : beginsCollation (l :: ls) = true → ∀ m ∈ (ls.drop 3).head?, isNeutral m.token = true

def Placed (ls : List Lexeme) : Prop := ∀ l t, l :: t <:+ ls → PlacedAt l t

instance (l : Lexeme) (ls : List Lexeme) : Decidable (PlacedAt l ls) :=
  decidable_of_iff
    ((beginsType ls = true → l.token.isOneOf ["TABLE", "EXISTS"] = false ∧ l.token ≠ .punct '.') ∧
      (beginsCollation ls = true → l.token.isOneOf headerWords = false ∧ l.token ≠ .punct '.') ∧
      (beginsCollation (l :: ls) = true → ∀ m ∈ (ls.drop 3).head?, isNeutral m.token = true))
    ⟨fun ⟨ht, hc, hf⟩ => ⟨ht, hc, hf⟩, fun ⟨ht, hc, hf⟩ => ⟨ht, hc, hf⟩⟩

theorem forall_mem_tails_iff {p : Lexeme → List Lexeme → Prop} {ls : List Lexeme} :
    (∀ s ∈ ls.tails, ∀ l ∈ s.head?, p l s.tail) ↔ ∀ l t, l :: t <:+ ls → p l t := by
  simp only [List.mem_tails]
  refine ⟨fun h l t ht => h (l :: t) ht l rfl, fun h s hs l hl => ?_⟩
  obtain ⟨t, rfl⟩ := List.head?_eq_some_iff.1 hl
  exact h l t hs

instance (ls : List Lexeme) : Decidable (Placed ls) :=
  decidable_of_iff _ forall_mem_tails_iff

section
variable {G : Text → Text → Prop} {a l : Lexeme} {ls ls' : List Lexeme}

theorem Placed.of_suffix (h : Placed ls) (hs : ls' <:+ ls) : Placed ls' :=
  fun l t hl => h l t (hl.trans hs)

theorem Placed.tail (h : Placed (l :: ls)) : Placed ls := h.of_suffix (List.suffix_cons l ls)

theorem Placed.head (h : Placed (l :: ls)) : PlacedAt l ls := h l ls (List.suffix_refl _)

private theorem isOneOf_of_subset {t : Token} {vs ws : List String} (h : t.isOneOf vs = true)
    (hvs : ∀ v ∈ vs, v ∈ ws) : t.isOneOf ws = true := by
  rw [Token.isOneOf_eq_any, List.any_eq_true] at h ⊢
  obtain ⟨v, hv, ht⟩ := h
  exact ⟨v, hvs v hv, ht⟩

/-- Behind a word of a header no collation stands. -/
theorem Placed.not_collation (h : Placed (a :: ls)) (ha : a.token.isOneOf headerWords = true) :
    beginsCollation ls = false := by
  by_contra hc
  rw [Bool.not_eq_false] at hc
  exact absurd ((h.head.collation hc).1.symm.trans ha) (by simp)

/-- Where a table name goes no phrase stands. -/
theorem Placed.not_phrase (h : Placed (a :: ls))
    (ha : a.token.isOneOf ["TABLE", "EXISTS"] = true ∨ a.token = .punct '.') :
    beginsPhrase ls = false := by
  rw [beginsPhrase_eq_false]
  constructor
  · by_contra ht
    rw [Bool.not_eq_false] at ht
    have hat := h.head.type ht
    rcases ha with ha | ha
    · exact absurd (hat.1.symm.trans ha) (by simp)
    · exact hat.2 ha
  · by_contra hc
    rw [Bool.not_eq_false] at hc
    have hat := h.head.collation hc
    rcases ha with ha | ha
    · exact absurd (hat.1.symm.trans (isOneOf_of_subset ha (by decide))) (by simp)
    · exact hat.2 ha

private theorem isNeutral_word {p : List String × String} (hp : p ∈ typePhrases) :
    isNeutral (.word p.2.toList) = true := by
  simp only [typePhrases, List.mem_cons, List.not_mem_nil, or_false] at hp
  rcases hp with rfl | rfl | rfl <;> decide

/-- What comes to stand behind a collation that goes is as neutral as what stood there. -/
theorem Rewritten.isNeutral_head (h : Prepared G ls ls') (hp : Placed ls)
    (hn : ∀ m ∈ ls.head?, isNeutral m.token = true) :
    ∀ m ∈ ls'.head?, isNeutral m.token = true := by
  induction h with
  | nil => exact hn
  | keep hl _ _ => simpa [hl.token] using hn
  | type hq => simpa using isNeutral_word hq
  | collation _ hbegins _ ih =>
    exact ih (hp.tail.tail.tail.tail) (hp.head.following hbegins)

private theorem foreign_not_isNeutral : Foreign fun t => !isNeutral t := by
  intro w hw t ht
  have hword : ∀ v ∈ phraseHeads, ∀ u ∈ ["varying", "precision", "with", "without", "time", "zone"],
      Text.same v.toList u.toList = false := by decide
  have hone := foreign_isOneOf hword w hw t ht
  cases t with
  | word name => simpa [isNeutral] using hone
  | _ => exact absurd ht (by simp [Token.isWord])

private theorem Rewritten.isNeutral_collation (h : Prepared G ls ls') (hp : Placed ls)
    (hc : beginsCollation ls = true) : ls'.head?.any (fun m => !isNeutral m.token) = false := by
  have hcollate : ls.head?.any (fun m => !isNeutral m.token) = false := by
    cases ls with
    | nil => rfl
    | cons l t =>
      simpa using foreign_not_isNeutral "collate" (by decide) _ (isWord_of_beginsCollation hc)
  cases h with
  | collation _ hbegins h =>
    have hn := h.isNeutral_head hp.tail.tail.tail.tail (hp.head.following hbegins)
    cases ls' with
    | nil => rfl
    | cons m t => simpa using hn m rfl
  | nil => rfl
  | keep hl => simpa [hl.token] using hcollate
  | type hq => simpa using isNeutral_word hq

/-- A predicate that holds of no neutral token has the same answer after preparation. -/
theorem Rewritten.any_head {p : Token → Bool} (hforeign : Foreign p)
    (hneutral : ∀ t, isNeutral t = true → p t = false) (h : Prepared G ls ls') (hp : Placed ls) :
    ls'.head?.any (p ·.token) = ls.head?.any (p ·.token) := by
  refine h.head_eq hforeign fun hc => ?_
  have hn := h.isNeutral_collation hp hc
  cases ls' with
  | nil => rfl
  | cons m t => exact hneutral m.token (by simpa using hn)

theorem nextIs_eq_any (w : String) (ls : List Lexeme) :
    nextIs w ls = ls.head?.any (·.token.isWord w) := by
  cases ls <;> rfl

end

section
variable {G : Text → Text → Prop} {a : Lexeme} {ls ls' : List Lexeme}

/-- What is read is the same, and what follows the second is what follows the first, prepared. -/
def SameRead {α : Type} (G : Text → Text → Prop) :
    Option (α × List Lexeme) → Option (α × List Lexeme) → Prop :=
  Option.Rel fun p q => q.1 = p.1 ∧ Prepared G p.2 q.2 ∧ Placed p.2

/-- The further parts of a name that a parenthesis follows, and the lexemes from there on. -/
def partsBefore? (ls : List Lexeme) : Option (List Text × List Lexeme) :=
  (Table.nameParts? ls).filter fun p => p.2.head?.any (·.token == .openParen)

theorem foreign_beq {k : Token} (hk : k.word? = none) : Foreign (· == k) := by
  intro w _ t ht
  cases t with
  | word name =>
    cases k with
    | word m => simp [Token.word?] at hk
    | _ => rfl
  | _ => exact absurd ht (by simp [Token.isWord])

theorem eq_false_of_isNeutral {t : Token} (h : isNeutral t = true) :
    (t == .openParen) = false ∧ (t == .punct '.') = false := by
  simp only [isNeutral, Bool.and_eq_true, bne_iff_ne] at h
  simpa using h.1

private theorem partsBefore?_of_not_point (h : ls.head?.any (·.token == .punct '.') = false) :
    partsBefore? ls = if ls.head?.any (·.token == .openParen) then some ([], ls) else none := by
  rw [partsBefore?, Position.nameParts?_of_not_point]
  · rfl
  · cases ls <;> simp_all

private theorem partsBefore?_point (ha : a.token = .punct '.') (l : Lexeme) :
    partsBefore? (a :: l :: ls) =
      l.token.name?.bind fun name => (partsBefore? ls).map fun p => (name :: p.1, p.2) := by
  obtain ⟨g, u, k⟩ := a
  obtain rfl : k = .punct '.' := ha
  cases hname : l.token.name? with
  | none => simp [partsBefore?, Table.nameParts?, hname]
  | some name =>
    cases hparts : Table.nameParts? ls with
    | none => simp [partsBefore?, Table.nameParts?, hname, hparts]
    | some p =>
      simp only [partsBefore?, Table.nameParts?, hname, hparts, Option.bind_eq_bind,
        Option.bind_some, Option.pure_def, Option.filter_some]
      split <;> rfl

private theorem Rewritten.sameParts (h : Prepared G ls ls') (hp : Placed ls) :
    SameRead G (partsBefore? ls) (partsBefore? ls') := by
  induction hn : ls.length using Nat.strongRecOn generalizing ls ls' with
  | ind n ih =>
    have hpoint := h.any_head (foreign_beq (k := .punct '.') rfl)
      (fun t ht => (eq_false_of_isNeutral ht).2) hp
    cases hls : ls.head?.any (·.token == .punct '.') with
    | false =>
      have hparen := h.any_head (foreign_beq (k := .openParen) rfl)
        (fun t ht => (eq_false_of_isNeutral ht).1) hp
      rw [partsBefore?_of_not_point hls, partsBefore?_of_not_point (hpoint.trans hls), hparen]
      split
      · exact .some ⟨rfl, h, hp⟩
      · exact .none
    | true =>
      obtain ⟨l, t, rfl, hl⟩ : ∃ l t, ls = l :: t ∧ l.token = .punct '.' := by
        cases ls with
        | nil => simp at hls
        | cons l t => exact ⟨l, t, rfl, by simpa using hls⟩
      obtain ⟨l', t', rfl, hkept, h⟩ := h.cons_of_not_phrase
        (beginsPhrase_of_foreign (foreign_beq (k := .punct '.') rfl) (by simp [hl]) t)
      have hl' : l'.token = .punct '.' := hkept.token.trans hl
      cases t with
      | nil =>
        obtain rfl := h.eq_nil
        obtain ⟨g, u, k⟩ := l
        obtain ⟨g', u', k'⟩ := l'
        obtain rfl : k = .punct '.' := hl
        obtain rfl : k' = .punct '.' := hl'
        exact .none
      | cons m t =>
        obtain ⟨m', t', rfl, hm, h⟩ := h.cons_of_not_phrase (hp.not_phrase (.inr hl))
        rw [partsBefore?_point hl, partsBefore?_point hl', hm.token]
        have hrest := ih t.length (by simp at hn; omega) h hp.tail.tail rfl
        cases m.token.name? with
        | none => exact .none
        | some name =>
          generalize partsBefore? t = p, partsBefore? t' = q at hrest
          cases hrest with
          | none => exact .none
          | some hr => exact .some ⟨congrArg (name :: ·) hr.1, hr.2⟩

private theorem nameBefore?_eq (ls : List Lexeme) :
    Position.nameBefore? ls = (ls.head?.bind (·.token.name?)).bind fun first =>
      (partsBefore? (ls.drop 1)).map fun p => (Text.join "." (first :: p.1), p.2) := by
  rw [Position.nameBefore?]
  generalize ls.drop 1 = t
  cases ls.head?.bind (·.token.name?) with
  | none => rfl
  | some first =>
    cases hparts : Table.nameParts? t with
    | none => simp [partsBefore?, hparts]
    | some p =>
      cases hp : p.2 with
      | nil => simp [partsBefore?, hparts, hp, Option.filter_some]
      | cons l t =>
        by_cases hl : l.token = .openParen
        · simp [partsBefore?, hparts, hp, hl, Option.filter_some]
        · simp [partsBefore?, hparts, hp, hl, Option.filter_some]

private theorem Rewritten.sameName (h : Prepared G ls ls') (hp : Placed (a :: ls))
    (ha : a.token.isOneOf ["TABLE", "EXISTS"] = true) :
    SameRead G (Position.nameBefore? ls) (Position.nameBefore? ls') := by
  rw [nameBefore?_eq, nameBefore?_eq]
  cases ls with
  | nil =>
    obtain rfl := h.eq_nil
    exact .none
  | cons m t =>
    obtain ⟨m', t', rfl, hm, h⟩ := h.cons_of_not_phrase (hp.not_phrase (.inl ha))
    have hparts := h.sameParts hp.tail.tail
    simp only [List.head?_cons, Option.bind_some, hm.token, List.drop_one, List.tail_cons]
    cases m.token.name? with
    | none => exact .none
    | some first =>
      generalize partsBefore? t = p, partsBefore? t' = q at hparts
      cases hparts with
      | none => exact .none
      | some hr => exact .some ⟨congrArg (Text.join "." <| first :: ·) hr.1, hr.2⟩

/-- Behind a word of a header the next word is read as before. -/
theorem Rewritten.nextIs_header (h : Prepared G ls ls') (hp : Placed (a :: ls))
    (ha : a.token.isOneOf headerWords = true) {w : String}
    (hw : ∀ v ∈ phraseHeads, Text.same v.toList w.toList = false) : nextIs w ls' = nextIs w ls := by
  rw [nextIs_eq_any, nextIs_eq_any]
  refine h.head_eq (foreign_isWord hw) fun hc => ?_
  exact absurd ((hp.not_collation ha).symm.trans hc) (by simp)

theorem exists_of_nextIs {w : String} (h : nextIs w ls = true) :
    ∃ l t, ls = l :: t ∧ l.token.isWord w = true := by
  cases ls with
  | nil => simp [nextIs] at h
  | cons l t => exact ⟨l, t, rfl, h⟩

/-- A word of a header is no part of a phrase. -/
theorem Rewritten.cons_of_nextIs (h : Prepared G ls ls') {w : String} (hn : nextIs w ls = true)
    (hw : ∀ v ∈ phraseHeads, Text.same v.toList w.toList = false) :
    ∃ l t l' t', ls = l :: t ∧ ls' = l' :: t' ∧ l.token.isWord w = true ∧ Kept G l l' ∧
      Prepared G t t' := by
  obtain ⟨l, t, rfl, hl⟩ := exists_of_nextIs hn
  obtain ⟨l', t', rfl, hkept, ht⟩ :=
    h.cons_of_not_phrase (beginsPhrase_of_foreign (foreign_isWord hw) hl t)
  exact ⟨l, t, l', t', rfl, rfl, hl, hkept, ht⟩

/-- Preparation keeps what stands between `CREATE` and the keyword `TABLE`. -/
theorem Rewritten.dropWhile (h : Prepared G ls ls') (hp : Placed (a :: ls))
    (ha : a.token.isOneOf headerWords = true) {ws : List String} (hws : ∀ w ∈ ws, w ∈ headerWords) :
    Prepared G (ls.dropWhile (·.token.isOneOf ws)) (ls'.dropWhile (·.token.isOneOf ws)) ∧
      ∃ b, b.token.isOneOf headerWords = true ∧
        Placed (b :: ls.dropWhile (·.token.isOneOf ws)) := by
  have hforeign : Foreign (·.isOneOf ws) := by
    refine foreign_isOneOf fun v hv w hw => ?_
    have hall : ∀ v ∈ phraseHeads, ∀ w ∈ headerWords, Text.same v.toList w.toList = false := by
      decide
    exact hall v hv w (hws w hw)
  induction ls generalizing a ls' with
  | nil =>
    obtain rfl := h.eq_nil
    exact ⟨.nil, a, ha, hp⟩
  | cons l t ih =>
    cases hl : l.token.isOneOf ws with
    | true =>
      obtain ⟨l', t', rfl, hkept, h⟩ :=
        h.cons_of_not_phrase (beginsPhrase_of_foreign hforeign hl t)
      simp only [List.dropWhile_cons, hkept.token, hl, if_true]
      exact ih h hp.tail (isOneOf_of_subset hl hws)
    | false =>
      have hhead := h.head_eq hforeign fun hc =>
        absurd ((hp.not_collation ha).symm.trans hc) (by simp)
      have hstop : ls'.dropWhile (·.token.isOneOf ws) = ls' := by
        cases ls' with
        | nil => rfl
        | cons l' t' =>
          have hl' : l'.token.isOneOf ws = false := by simpa [hl] using hhead
          simp [hl']
      rw [hstop]
      simp only [List.dropWhile_cons, hl, Bool.false_eq_true, if_false]
      exact ⟨h, a, ha, hp⟩

theorem isOneOf_of_isWord {t : Token} {w : String} {ws : List String} (h : t.isWord w = true)
    (hw : w ∈ ws) : t.isOneOf ws = true := by
  rw [Token.isOneOf_eq_any, List.any_eq_true]
  exact ⟨w, hw, h⟩

/-- How many lexemes `IF NOT EXISTS` takes at the start, if it is there. -/
def conditionLength (ls : List Lexeme) : Nat :=
  if nextIs "IF" ls && nextIs "NOT" (ls.drop 1) && nextIs "EXISTS" (ls.drop 2) then 3 else 0

private theorem Rewritten.drop_condition (h : Prepared G ls ls') (hp : Placed (a :: ls))
    (ha : a.token.isWord "TABLE" = true) :
    conditionLength ls' = conditionLength ls ∧
      Prepared G (ls.drop (conditionLength ls)) (ls'.drop (conditionLength ls)) ∧
      ∃ b, b.token.isOneOf ["TABLE", "EXISTS"] = true ∧
        Placed (b :: ls.drop (conditionLength ls)) := by
  have hnone : ∃ b, b.token.isOneOf ["TABLE", "EXISTS"] = true ∧ Placed (b :: ls) :=
    ⟨a, isOneOf_of_isWord ha (by decide), hp⟩
  unfold conditionLength
  rw [h.nextIs_header hp (isOneOf_of_isWord ha (by decide)) (w := "IF") (by decide)]
  cases hif : nextIs "IF" ls with
  | false => exact ⟨rfl, h, hnone⟩
  | true =>
    obtain ⟨l, t, l', t', rfl, rfl, hl, -, ht⟩ := h.cons_of_nextIs hif (by decide)
    simp only [List.drop_succ_cons, List.drop_zero, Bool.true_and]
    rw [ht.nextIs_header hp.tail (isOneOf_of_isWord hl (by decide)) (w := "NOT") (by decide)]
    cases hnot : nextIs "NOT" t with
    | false => exact ⟨rfl, h, hnone⟩
    | true =>
      obtain ⟨m, u, m', u', rfl, rfl, hm, -, hu⟩ := ht.cons_of_nextIs hnot (by decide)
      simp only [List.drop_succ_cons, List.drop_zero, Bool.true_and]
      rw [hu.nextIs_header hp.tail.tail (isOneOf_of_isWord hm (by decide)) (w := "EXISTS")
        (by decide)]
      cases hexists : nextIs "EXISTS" u with
      | false => exact ⟨rfl, h, hnone⟩
      | true =>
        obtain ⟨n, v, n', v', rfl, rfl, hn, -, hv⟩ := hu.cons_of_nextIs hexists (by decide)
        exact ⟨rfl, hv, n, isOneOf_of_isWord hn (by decide), hp.tail.tail.tail⟩

theorem headerAfterCreate?_cons {ls t : List Lexeme} {l : Lexeme}
    (h : ls.dropWhile (·.token.isOneOf ["TEMPORARY", "TEMP", "UNLOGGED", "GLOBAL", "LOCAL"]) =
      l :: t) (hl : l.token.isWord "TABLE" = true) :
    Table.headerAfterCreate? ls = Position.nameBefore? (t.drop (conditionLength t)) := by
  have htable : nextIs "TABLE" (l :: t) = true := hl
  rw [Position.headerAfterCreate?_eq]
  simp only [h, htable, if_true, List.drop_succ_cons, List.drop_zero, conditionLength]
  split <;> rfl

private theorem Rewritten.sameHeaderAfterCreate (h : Prepared G ls ls') (hp : Placed (a :: ls))
    (ha : a.token.isWord "CREATE" = true) :
    SameRead G (Table.headerAfterCreate? ls) (Table.headerAfterCreate? ls') := by
  have hmodifiers : ∀ w ∈ ["TEMPORARY", "TEMP", "UNLOGGED", "GLOBAL", "LOCAL"],
      w ∈ headerWords := by
    decide
  obtain ⟨hdrop, b, hb, hpb⟩ := h.dropWhile hp (isOneOf_of_isWord ha (by decide)) hmodifiers
  have hnext := hdrop.nextIs_header hpb hb (w := "TABLE") (by decide)
  cases htable : nextIs "TABLE"
      (ls.dropWhile (·.token.isOneOf ["TEMPORARY", "TEMP", "UNLOGGED", "GLOBAL", "LOCAL"])) with
  | false =>
    rw [Position.headerAfterCreate?_eq, Position.headerAfterCreate?_eq]
    simp only [hnext, htable, Bool.false_eq_true, if_false]
    exact .none
  | true =>
    obtain ⟨l, t, l', t', hls, hls', hl, hkept, ht⟩ := hdrop.cons_of_nextIs htable (by decide)
    rw [hls] at hpb
    obtain ⟨hlen, hrest, c, hc, hpc⟩ := ht.drop_condition hpb.tail hl
    rw [headerAfterCreate?_cons hls hl, headerAfterCreate?_cons hls' (by rw [hkept.token, hl]),
      hlen]
    exact hrest.sameName hpc hc

private theorem header?_append {run : List Lexeme} (h : ∀ l ∈ run, l.token.isWord "CREATE" = false)
    (ls : List Lexeme) : Table.header? (run ++ ls) = Table.header? ls := by
  induction run with
  | nil => rfl
  | cons l run ih =>
    rw [List.cons_append, Table.header?, h l List.mem_cons_self]
    exact ih fun m hm => h m (List.mem_cons_of_mem l hm)

/-- Preparation keeps the header of a statement. -/
theorem Rewritten.sameHeader (h : Prepared G ls ls') (hp : Placed ls) :
    SameRead G (Table.header? ls) (Table.header? ls') := by
  induction h with
  | nil => exact .none
  | @keep l l' t t' hl h ih =>
    rw [Table.header?, Table.header?, hl.token]
    cases hc : l.token.isWord "CREATE" with
    | false => exact ih hp.tail
    | true =>
      have hafter := h.sameHeaderAfterCreate hp hc
      have hrest := ih hp.tail
      simp only [if_true]
      generalize Table.headerAfterCreate? t = x, Table.headerAfterCreate? t' = y at hafter
      cases hafter with
      | some hr => exact .some hr
      | none => exact hrest
  | @type p l run t t' g hq hspells hlen _ h ih =>
    have hrun : ∀ m ∈ l :: run, m.token.isWord "CREATE" = false := by
      intro m hm
      obtain ⟨w, hw, hword⟩ := isOneOf_of_spells hspells hlen m hm
      rw [Token.isWord_of_isWord hword]
      have hall : ∀ p ∈ typePhrases, ∀ w ∈ p.1, Text.same w.toList "CREATE".toList = false := by
        decide
      exact hall p hq w hw
    have hname : (Token.word p.2.toList).isWord "CREATE" = false := by
      have hall : ∀ p ∈ typePhrases, (Token.word p.2.toList).isWord "CREATE" = false := by decide
      exact hall p hq
    rw [header?_append hrun, Table.header?, hname]
    exact ih (hp.of_suffix (List.suffix_append _ _))
  | @collation a b c d t t' _ hbegins _ ih =>
    obtain ⟨ha, hb, hc, v, hd, -⟩ := collation_tokens hbegins
    have hskip : ∀ l ∈ [a, b, c, d], l.token.isWord "CREATE" = false := by
      simp only [List.forall_mem_cons, hc, hd]
      exact ⟨(Token.isWord_of_isWord ha).trans (by decide),
        (Token.isWord_of_isWord hb).trans (by decide), rfl, rfl, List.forall_mem_nil _⟩
    have hheader := header?_append hskip
    simp only [List.cons_append, List.nil_append] at hheader
    rw [hheader]
    exact ih hp.tail.tail.tail.tail

end

end Lexeme

end TableDialects
