import TableDialects.Proofs.Script.Header
import TableDialects.Proofs.Table.Body

/-!
# Bodies of prepared statements

Preparation keeps the parentheses and the commas of a body, so it keeps the groups and each
fragment is prepared by itself.
-/
namespace TableDialects

namespace Lexeme

section
variable {G : Text → Text → Prop} {l l' : Lexeme} {ls ls' : List Lexeme}

private theorem isInner_of_isWord {t : Token} {w : String} (h : t.isWord w = true) :
    Token.isInner t = true := by
  cases t with
  | word name => rfl
  | _ => exact absurd h (by simp [Token.isWord])

theorem isInner_of_spells {ws : List String} {run : List Lexeme} (h : spells ws run)
    (hlen : run.length = ws.length) : ∀ l ∈ run, Token.isInner l.token = true := by
  intro l hl
  obtain ⟨w, -, hw⟩ := isOneOf_of_spells h hlen l hl
  exact isInner_of_isWord hw

private theorem isInner_of_collation {a b c d : Lexeme} (h : beginsCollation [a, b, c, d]) :
    ∀ l ∈ [a, b, c, d], Token.isInner l.token = true := by
  obtain ⟨ha, hb, hc, v, hd, -⟩ := collation_tokens h
  simp only [List.forall_mem_cons, hc, hd]
  exact ⟨isInner_of_isWord ha, isInner_of_isWord hb, rfl, rfl, List.forall_mem_nil _⟩

private theorem closing?_inner {r : List Lexeme} (h : ∀ l ∈ r, Token.isInner l.token = true)
    (depth : Nat) (ls : List Lexeme) :
    Token.closing? depth ((r ++ ls).map (·.token)) =
      (Token.closing? depth (ls.map (·.token))).map (· + r.length) := by
  induction r with
  | nil => simp
  | cons l r ih =>
    have hl := h l List.mem_cons_self
    simp only [Token.isInner, Bool.and_eq_true, bne_iff_ne] at hl
    rw [List.cons_append, List.map_cons, Token.closing?,
      ih fun m hm => h m (List.mem_cons_of_mem l hm), Option.map_map, List.length_cons]
    · rfl
    · exact hl.1.1
    · exact hl.1.2

/-- Prepared lexemes are cut by the parenthesis that closes the open group where it closes it in
the lexemes as they were. -/
def SameCut (G : Text → Text → Prop) (depth : Nat) (ls ls' : List Lexeme) : Prop :=
  ∃ as c bs as' c' bs', ls = as ++ c :: bs ∧ ls' = as' ++ c' :: bs' ∧
    Token.closing? depth (ls.map (·.token)) = some as.length ∧
    Token.closing? depth (ls'.map (·.token)) = some as'.length ∧
    c.token = .closeParen ∧ Kept G c c' ∧ Prepared G as as' ∧ Prepared G bs bs'

/-- The group is open or both lists are cut. -/
def OpenOrCut (G : Text → Text → Prop) (depth : Nat) (ls ls' : List Lexeme) : Prop :=
  Token.closing? depth (ls.map (·.token)) = none ∧
    Token.closing? depth (ls'.map (·.token)) = none ∨ SameCut G depth ls ls'

/-- What stands in front of the cut may be prepared as well. -/
theorem OpenOrCut.append {depth depth' : Nat} {u v : List Lexeme} (h : OpenOrCut G depth' ls ls')
    (hus : ∀ as as', Prepared G as as' → Prepared G (u ++ as) (v ++ as'))
    (hcut : Token.closing? depth ((u ++ ls).map (·.token)) =
      (Token.closing? depth' (ls.map (·.token))).map (· + u.length))
    (hcut' : Token.closing? depth ((v ++ ls').map (·.token)) =
      (Token.closing? depth' (ls'.map (·.token))).map (· + v.length)) :
    OpenOrCut G depth (u ++ ls) (v ++ ls') := by
  rcases h with ⟨hn, hn'⟩ | ⟨as, c, bs, as', c', bs', rfl, rfl, hs, hs', hc, hkept, has, hbs⟩
  · left
    exact ⟨by rw [hcut, hn]; rfl, by rw [hcut', hn']; rfl⟩
  · right
    refine ⟨u ++ as, c, bs, v ++ as', c', bs', by simp, by simp, ?_, ?_, hc, hkept,
      hus as as' has, hbs⟩
    · rw [hcut, hs, List.length_append, Nat.add_comm]
      rfl
    · rw [hcut', hs', List.length_append, Nat.add_comm]
      rfl

private theorem Rewritten.openOrCut (h : Prepared G ls ls') (depth : Nat) :
    OpenOrCut G depth ls ls' := by
  induction h generalizing depth with
  | nil => exact .inl ⟨rfl, rfl⟩
  | @keep l l' ls ls' hl h ih =>
    have hkeep : ∀ as as', Prepared G as as' → Prepared G ([l] ++ as) ([l'] ++ as') :=
      fun _ _ => .keep hl
    have htokens : ∀ (d d' : Nat), (∀ ts, Token.closing? d (l.token :: ts) =
        (Token.closing? d' ts).map (· + 1)) → OpenOrCut G d (l :: ls) (l' :: ls') := by
      intro d d' hd
      refine (ih d').append hkeep (hd _) ?_
      simpa [hl.token] using hd (ls'.map (·.token))
    by_cases ho : l.token = .openParen
    · exact htokens depth (depth + 1) fun ts => by rw [ho, Token.closing?]
    by_cases hc : l.token = .closeParen
    · by_cases hdepth : depth ≤ 1
      · refine .inr ⟨[], l, ls, [], l', ls', rfl, rfl, ?_, ?_, hc, hl, .nil, h⟩
        · simp [hc, Token.closing?, hdepth]
        · simp [hl.token, hc, Token.closing?, hdepth]
      · exact htokens depth (depth - 1) fun ts => by rw [hc, Token.closing?, if_neg hdepth]
    · exact htokens depth depth fun ts => by rw [Token.closing?] <;> assumption
  | @type p l run ls ls' g hp hspells hlen hg h ih =>
    refine (ih depth).append (v := [_]) (fun as as' => .type hp hspells hlen hg)
      (closing?_inner (isInner_of_spells hspells hlen) depth ls) ?_
    exact closing?_inner (r := [_]) (by simp [Token.isInner]) depth ls'
  | @collation a b c d ls ls' hd hbegins h ih =>
    refine (ih depth).append (u := [a, b, c, d]) (v := []) (fun as as' => .collation hd hbegins)
      (closing?_inner (isInner_of_collation hbegins) depth ls) ?_
    exact closing?_inner (r := []) (by simp) depth ls'

/-- The lexemes without a last closing parenthesis. -/
def dropClosing (ls : List Lexeme) : List Lexeme :=
  if ls.getLast?.map (·.token) = some .closeParen then ls.dropLast else ls

private theorem dropClosing_append (us : List Lexeme) (hne : ls ≠ []) :
    dropClosing (us ++ ls) = us ++ dropClosing ls := by
  unfold dropClosing
  rw [List.getLast?_append_of_ne_nil _ hne, List.dropLast_append_of_ne_nil hne]
  split <;> rfl

private theorem dropClosing_of_isInner (h : ∀ l ∈ ls, Token.isInner l.token = true) :
    dropClosing ls = ls := by
  unfold dropClosing
  refine if_neg fun hlast => ?_
  obtain ⟨l, hl, hc⟩ := Option.map_eq_some_iff.1 hlast
  have := h l (List.mem_of_getLast? hl)
  rw [hc] at this
  exact absurd this (by decide)

/-- No collation stands at the end. -/
def EndsPlain (ls : List Lexeme) : Prop := ∀ s, s <:+ ls → beginsCollation s = true → 4 < s.length

instance (ls : List Lexeme) : Decidable (EndsPlain ls) :=
  decidable_of_iff (∀ s ∈ ls.tails, beginsCollation s = true → 4 < s.length) (by simp [EndsPlain])

theorem EndsPlain.of_append {u : List Lexeme} (h : EndsPlain (u ++ ls)) : EndsPlain ls :=
  fun s hs => h s (hs.trans (List.suffix_append u ls))

private theorem Rewritten.eq_nil_of_nil (h : Prepared G ls ls') (he : EndsPlain ls)
    (hn : ls' = []) : ls = [] := by
  induction h with
  | nil => rfl
  | keep => exact absurd hn (by simp)
  | type => exact absurd hn (by simp)
  | @collation a b c d ts ts' _ hbegins _ ih =>
    obtain rfl := ih (he.of_append (u := [a, b, c, d])) hn
    exact absurd (he _ (List.suffix_refl _) hbegins) (by simp)

private theorem Rewritten.dropClosing (h : Prepared G ls ls') (he : EndsPlain ls) :
    Prepared G (dropClosing ls) (dropClosing ls') := by
  -- the last lexeme is prepared by itself, and all in front of it stays in front of it
  have hstep : ∀ {u v ts ts' : List Lexeme}, Prepared G ts ts' → EndsPlain (u ++ ts) →
      (∀ as as', Prepared G as as' → Prepared G (u ++ as) (v ++ as')) →
      (ts = [] → Prepared G (Lexeme.dropClosing (u ++ ts)) (Lexeme.dropClosing (v ++ ts'))) →
      (EndsPlain ts → Prepared G (Lexeme.dropClosing ts) (Lexeme.dropClosing ts')) →
      Prepared G (Lexeme.dropClosing (u ++ ts)) (Lexeme.dropClosing (v ++ ts')) := by
    intro u v ts ts' hts he hus hnil ih
    by_cases hne : ts = []
    · exact hnil hne
    · have hne' : ts' ≠ [] := fun h => hne (hts.eq_nil_of_nil he.of_append h)
      rw [dropClosing_append u hne, dropClosing_append v hne']
      exact hus _ _ (ih he.of_append)
  induction h with
  | nil => exact .nil
  | @keep l l' ts ts' hl h ih =>
    refine hstep (u := [l]) (v := [l']) h he (fun _ _ => .keep hl) (fun hn => ?_) ih
    subst hn
    obtain rfl := h.eq_nil
    by_cases hc : l.token = .closeParen
    · simp [Lexeme.dropClosing, hl.token, hc, Rewritten.nil]
    · simpa [Lexeme.dropClosing, hl.token, hc] using Rewritten.keep hl .nil
  | @type p l run ts ts' g hp hspells hlen hg h ih =>
    refine hstep (u := l :: run) (v := [_]) h he (fun _ _ => .type hp hspells hlen hg)
      (fun hn => ?_) ih
    subst hn
    obtain rfl := h.eq_nil
    rw [List.append_nil, List.append_nil, dropClosing_of_isInner (isInner_of_spells hspells hlen),
      dropClosing_of_isInner (by simp [Token.isInner])]
    have htype := Rewritten.type hp hspells hlen hg h
    rwa [List.append_nil] at htype
  | @collation a b c d ts ts' hd hbegins h ih =>
    refine hstep (u := [a, b, c, d]) (v := []) h he (fun _ _ => .collation hd hbegins)
      (fun hn => ?_) ih
    subst hn
    exact absurd (he _ (List.suffix_refl _) hbegins) (by simp)

theorem groupLength_of_none (hl : l.token = .openParen)
    (h : Token.closing? 1 (ls.map (·.token)) = none) : groupLength (l :: ls) = ls.length + 1 := by
  simp [groupLength, Token.groupEnd, hl, Token.closing?, h]

theorem groupLength_of_some (hl : l.token = .openParen) {n : Nat}
    (h : Token.closing? 1 (ls.map (·.token)) = some n) : groupLength (l :: ls) = n + 2 := by
  simp [groupLength, Token.groupEnd, hl, Token.closing?, h]

private theorem groupInner_of_none (hl : l.token = .openParen)
    (h : Token.closing? 1 (ls.map (·.token)) = none) : groupInner (l :: ls) = dropClosing ls := by
  change dropClosing ((l :: ls).take (groupLength (l :: ls))).tail = _
  rw [groupLength_of_none hl h, List.take_succ_cons, List.take_length, List.tail_cons]

private theorem groupInner_of_some {as bs : List Lexeme} {c : Lexeme} (hl : l.token = .openParen)
    (hc : c.token = .closeParen)
    (h : Token.closing? 1 ((as ++ c :: bs).map (·.token)) = some as.length) :
    groupInner (l :: (as ++ c :: bs)) = as := by
  change dropClosing ((l :: (as ++ c :: bs)).take (groupLength (l :: (as ++ c :: bs)))).tail = _
  rw [groupLength_of_some hl h, List.take_succ_cons, List.tail_cons, List.append_cons,
    List.take_left' (by simp)]
  simp [dropClosing, hc]

/-- Preparation keeps the group at the start. -/
theorem Rewritten.groupInner (h : Prepared G ls ls') (hl : l.token = .openParen)
    (hl' : l'.token = .openParen) (he : EndsPlain ls) :
    Prepared G (groupInner (l :: ls)) (groupInner (l' :: ls')) := by
  rcases h.openOrCut 1 with ⟨hn, hn'⟩ |
    ⟨as, c, bs, as', c', bs', rfl, rfl, hs, hs', hc, hkept, has, -⟩
  · rw [groupInner_of_none hl hn, groupInner_of_none hl' hn']
    exact h.dropClosing he
  · rw [groupInner_of_some hl hc hs, groupInner_of_some hl' (hkept.token.trans hc) hs']
    exact has

/-- Preparation keeps what follows the group at the start. -/
theorem Rewritten.drop_leadingGroup (h : Prepared G ls ls') (hp : Placed ls) :
    Prepared G (ls.drop (leadingGroup ls)) (ls'.drop (leadingGroup ls')) := by
  have hopen := h.any_head (foreign_beq (k := .openParen) rfl)
    (fun t ht => (eq_false_of_isNeutral ht).1) hp
  have hlead : ∀ us : List Lexeme, leadingGroup us =
      if us.head?.any (·.token == .openParen) then groupLength us else 0 := by
    intro us
    cases us <;> simp [leadingGroup]
  rw [hlead, hlead, hopen]
  split
  · next ho =>
    cases ls with
    | nil => simp at ho
    | cons l ls =>
      have hl : l.token = .openParen := by simpa using ho
      obtain ⟨l', t, rfl, hkept, ht⟩ :=
        h.cons_of_not_phrase (beginsPhrase_of_foreign (foreign_beq (k := .openParen) rfl) ho ls)
      have hl' : l'.token = .openParen := hkept.token.trans hl
      rcases ht.openOrCut 1 with ⟨hn, hn'⟩ |
        ⟨as, c, bs, as', c', bs', rfl, rfl, hs, hs', -, -, -, hbs⟩
      · rw [groupLength_of_none hl hn, groupLength_of_none hl' hn']
        simpa using Rewritten.nil
      · rw [groupLength_of_some hl hs, groupLength_of_some hl' hs']
        rw [List.drop_succ_cons, List.append_cons, List.drop_left' (by simp), List.drop_succ_cons,
          List.append_cons as', List.drop_left' (by simp)]
        exact hbs
  · exact h

private theorem pieces_inner {r : List Lexeme} (h : ∀ l ∈ r, Token.isInner l.token = true)
    {depth : Nat} {p : List Lexeme} {ps : List (List Lexeme)}
    (hp : Table.pieces depth ls = p :: ps) :
    Table.pieces depth (r ++ ls) = (r ++ p) :: ps := by
  induction r with
  | nil => exact hp
  | cons l r ih =>
    have hl := h l List.mem_cons_self
    simp only [Token.isInner, Bool.and_eq_true, bne_iff_ne] at hl
    have hdepth : depthBehind depth l.token = depth := by
      unfold depthBehind
      split <;> simp_all
    refine Table.pieces_cons (fun hc => hl.2 hc.1) ?_
    rw [hdepth]
    exact ih fun m hm => h m (List.mem_cons_of_mem l hm)

/-- Lexemes that join the first piece may be prepared as well. -/
theorem forall₂_pieces {depth depth' : Nat} {u v : List Lexeme}
    (h : List.Forall₂ (Prepared G) (Table.pieces depth' ls) (Table.pieces depth' ls'))
    (hus : ∀ as as', Prepared G as as' → Prepared G (u ++ as) (v ++ as'))
    (hp : ∀ p ps, Table.pieces depth' ls = p :: ps →
      Table.pieces depth (u ++ ls) = (u ++ p) :: ps)
    (hp' : ∀ p ps, Table.pieces depth' ls' = p :: ps →
      Table.pieces depth (v ++ ls') = (v ++ p) :: ps) :
    List.Forall₂ (Prepared G) (Table.pieces depth (u ++ ls)) (Table.pieces depth (v ++ ls')) := by
  obtain ⟨p, ps, he⟩ := List.exists_cons_of_ne_nil (Table.pieces_ne_nil depth' ls)
  obtain ⟨p', ps', he'⟩ := List.exists_cons_of_ne_nil (Table.pieces_ne_nil depth' ls')
  rw [he, he', List.forall₂_cons] at h
  rw [hp p ps he, hp' p' ps' he']
  exact .cons (hus p p' h.1) h.2

/-- Each piece of a body is prepared by itself. -/
theorem Rewritten.pieces (h : Prepared G ls ls') (depth : Nat) :
    List.Forall₂ (Prepared G) (Table.pieces depth ls) (Table.pieces depth ls') := by
  induction h generalizing depth with
  | nil => exact .cons .nil .nil
  | @keep l l' ls ls' hl h ih =>
    by_cases hc : l.token = .comma ∧ depth = 0
    · have hpieces : ∀ {m : Lexeme} (ms : List Lexeme), m.token = .comma →
          Table.pieces depth (m :: ms) = [] :: Table.pieces depth ms :=
        fun ms hm => by rw [Table.pieces, if_pos ⟨hm, hc.2⟩]
      rw [hpieces ls hc.1, hpieces ls' (hl.token.trans hc.1)]
      exact .cons .nil (ih depth)
    · refine forall₂_pieces (u := [l]) (v := [l']) (ih (depthBehind depth l.token))
        (fun _ _ => .keep hl) (fun p ps => Table.pieces_cons hc) (fun p ps hp => ?_)
      refine Table.pieces_cons ?_ ?_
      · rwa [hl.token]
      · rwa [hl.token]
  | @type p l run ls ls' g hp hspells hlen hg h ih =>
    exact forall₂_pieces (v := [_]) (ih depth) (fun _ _ => .type hp hspells hlen hg)
      (fun q qs => pieces_inner (isInner_of_spells hspells hlen))
      (fun q qs => pieces_inner (r := [_]) (by simp [Token.isInner]))
  | @collation a b c d ls ls' hd hbegins h ih =>
    exact forall₂_pieces (u := [a, b, c, d]) (v := []) (ih depth)
      (fun _ _ => .collation hd hbegins) (fun p ps => pieces_inner (isInner_of_collation hbegins))
      (fun p ps hp => hp)

/-- Each fragment is prepared by itself, if none begins with a phrase. -/
theorem Rewritten.fragments (h : Prepared G ls ls')
    (hstart : ∀ f ∈ Table.fragments ls, beginsPhrase f = false) :
    List.Forall₂ (Prepared G) (Table.fragments ls) (Table.fragments ls') := by
  have hpieces := h.pieces 0
  unfold Table.fragments at hstart ⊢
  generalize Table.pieces 0 ls = ps, Table.pieces 0 ls' = ps' at hpieces hstart
  induction hpieces with
  | nil => exact .nil
  | @cons p p' ps ps' hp _ ih =>
    cases p with
    | nil =>
      obtain rfl := hp.eq_nil
      exact ih hstart
    | cons l t =>
      simp only [List.filter_cons, List.isEmpty_cons, Bool.not_false, if_true,
        List.forall_mem_cons] at hstart
      obtain ⟨l', t', rfl, -⟩ := hp.cons_of_not_phrase hstart.1
      exact .cons hp (ih hstart.2)

end

end Lexeme

end TableDialects
