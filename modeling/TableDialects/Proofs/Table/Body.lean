import TableDialects.Table.Definition
import TableDialects.Proofs.Token.Phrase

/-!
# Bodies of definitions

Entries between commas are found again as the fragments of a body, and so are names between commas
as the columns of a key.
-/
namespace TableDialects

/-- The depth behind a token. -/
def Lexeme.depthBehind (depth : Nat) : Token → Nat
  | .openParen => depth + 1
  | .closeParen => depth - 1
  | _ => depth

private theorem Token.depthAfter_depthBehind {t : Token} {ts : List Token} {d d' : Nat}
    (h : depthAfter d (t :: ts) = some d') :
    ¬(t = .comma ∧ d = 0) ∧ depthAfter (Lexeme.depthBehind d t) ts = some d' := by
  cases t with
  | comma =>
    obtain ⟨hd, hrest⟩ : d ≠ 0 ∧ depthAfter d ts = some d' := by simpa [depthAfter] using h
    exact ⟨fun hc => hd hc.2, hrest⟩
  | closeParen =>
    obtain ⟨-, hrest⟩ : d ≠ 0 ∧ depthAfter (d - 1) ts = some d' := by simpa [depthAfter] using h
    exact ⟨by simp, hrest⟩
  | _ => exact ⟨by simp, h⟩

open Lexeme

namespace Table

theorem pieces_ne_nil (d : Nat) (ls : List Lexeme) : pieces d ls ≠ [] := by
  cases ls with
  | nil => simp [pieces]
  | cons l ls =>
    rw [pieces]
    split
    · simp
    · dsimp only
      generalize pieces _ ls = ps
      cases ps <;> simp

theorem pieces_cons {l : Lexeme} {ls : List Lexeme} {depth : Nat}
    (hl : ¬(l.token = .comma ∧ depth = 0)) {p : List Lexeme} {ps : List (List Lexeme)}
    (hp : pieces (depthBehind depth l.token) ls = p :: ps) :
    pieces depth (l :: ls) = (l :: p) :: ps := by
  obtain ⟨g, u, k⟩ := l
  rw [pieces, if_neg hl]
  cases k <;> simp_all [depthBehind]

/-- Lexemes that no comma divides belong to the first piece. -/
theorem pieces_append {e rest : List Lexeme} {d d' : Nat}
    (h : Token.depthAfter d (e.map (·.token)) = some d') :
    ∃ p ps, pieces d' rest = p :: ps ∧ pieces d (e ++ rest) = (e ++ p) :: ps := by
  induction e generalizing d with
  | nil =>
    obtain rfl := Option.some.inj h
    obtain ⟨p, ps, hp⟩ := List.exists_cons_of_ne_nil (pieces_ne_nil d rest)
    exact ⟨p, ps, hp, hp⟩
  | cons l e ih =>
    obtain ⟨hl, hrest⟩ := Token.depthAfter_depthBehind h
    obtain ⟨p, ps, hp, he⟩ := ih hrest
    exact ⟨p, ps, hp, pieces_cons hl he⟩

private theorem pieces_entries {es : List (List Lexeme)} (hne : es ≠ [])
    (h : ∀ e ∈ es, Token.Enclosed (e.map (·.token))) : pieces 0 (entries es) = es := by
  induction es with
  | nil => exact absurd rfl hne
  | cons e es ih =>
    have he := h e List.mem_cons_self
    cases es with
    | nil =>
      obtain ⟨p, ps, hp, hpe⟩ := @pieces_append e [] 0 0 he
      obtain ⟨rfl, rfl⟩ := List.cons.inj hp
      simpa [entries] using hpe
    | cons f es =>
      obtain ⟨p, ps, hp, hpe⟩ := @pieces_append e (comma :: entries (f :: es)) 0 0 he
      have hc : pieces 0 (comma :: entries (f :: es)) = [] :: pieces 0 (entries (f :: es)) := by
        rw [pieces, if_pos ⟨rfl, rfl⟩]
      rw [hc, ih (by simp) fun g hg => h g (List.mem_cons_of_mem e hg)] at hp
      obtain ⟨rfl, rfl⟩ := List.cons.inj hp
      rw [entries_cons_cons, hpe, List.append_nil]

/-- The fragments of a body are its entries. -/
theorem fragments_entries {es : List (List Lexeme)}
    (h : ∀ e ∈ es, e ≠ [] ∧ Token.Enclosed (e.map (·.token))) : fragments (entries es) = es := by
  by_cases hne : es = []
  · subst hne
    rfl
  · rw [fragments, pieces_entries hne fun e he => (h e he).2]
    refine List.filter_eq_self.2 fun e he => ?_
    simpa using (h e he).1

end Table

namespace Fragment

/-- Behind its name an entry has no other. -/
theorem entryNames_enclosed {d d' : Nat} {ts : List Token} (h : Token.depthAfter d ts = some d')
    (us : List Token) : entryNames d false (ts ++ us) = entryNames d' false us := by
  fun_induction Token.depthAfter d ts with
  | case1 => rw [List.nil_append, Option.some.inj h]
  | case2 d ts ih => exact ih h
  | case3 => cases h
  | case4 d ts hd ih => exact ih h
  | case5 => cases h
  | case6 d ts hd ih =>
    rw [List.cons_append, entryNames, if_pos hd, ih h]
    all_goals simp
  | case7 d t ts ho hc hm ih =>
    rw [List.cons_append, entryNames, if_neg (c := t = .comma) hm, if_neg Bool.false_ne_true,
      ite_self, ih h]
    all_goals assumption

/-- Each entry is led by its name, whatever else it has. -/
theorem entryNames_led {es : List (Lexeme × List Lexeme)}
    (h : ∀ e ∈ es, Token.isInner e.1.token = true ∧ Token.Enclosed (e.2.map (·.token))) :
    entryNames 0 true ((entries (es.map fun e => e.1 :: e.2)).map (·.token)) =
      es.flatMap (·.1.token.name?.toList) := by
  induction es with
  | nil => rfl
  | cons e es ih =>
    obtain ⟨hinner, henclosed⟩ := h e List.mem_cons_self
    simp only [Token.isInner, Bool.and_eq_true, bne_iff_ne] at hinner
    have he : ∀ ts, entryNames 0 true (e.1.token :: (e.2.map (·.token) ++ ts)) =
        e.1.token.name?.toList ++ entryNames 0 false ts := by
      intro ts
      rw [entryNames, if_neg (by simp), if_neg hinner.2, if_pos rfl,
        entryNames_enclosed henclosed]
      · exact fun he => hinner.1.1 he
      · exact fun he => hinner.1.2 he
    cases es with
    | nil => simpa [entries, entryNames] using he []
    | cons f es =>
      have hrec := ih fun g hg => h g (List.mem_cons_of_mem e hg)
      rw [List.map_cons, List.map_cons, entries_cons_cons, List.map_append, List.map_cons,
        List.cons_append, he, List.map_cons, List.flatMap_cons, ← hrec]
      rfl

/-- The names are those of the first list. -/
theorem columnNames_led {ls : List Lexeme} (es : List (Lexeme × List Lexeme))
    (hls : ∀ l ∈ ls, l.token ≠ .openParen)
    (hes : ∀ e ∈ es, Token.isInner e.1.token = true ∧ Token.Enclosed (e.2.map (·.token)))
    (g g' : Text) :
    columnNames (ls ++ group g (es.map fun e => e.1 :: e.2) g') =
      es.flatMap (·.1.token.name?.toList) := by
  have henclosed : ∀ e ∈ es.map fun e => e.1 :: e.2, Token.Enclosed (e.map (·.token)) := by
    intro e he
    obtain ⟨f, hf, rfl⟩ := List.mem_map.1 he
    exact (enclosed_singleton (hes f hf).1).append (hes f hf).2
  have hinner := @groupInner_group g g' _ henclosed []
  have hdrop : (ls ++ group g (es.map fun e => e.1 :: e.2) g').dropWhile (·.token != .openParen) =
      group g (es.map fun e => e.1 :: e.2) g' :=
    List.dropWhile_append_of_pos fun l hl => by simpa using hls l hl
  rw [List.append_nil] at hinner
  rw [columnNames, hdrop, hinner, entryNames_led hes]

theorem columnNames_append {ls cs : List Lexeme} (hls : ∀ l ∈ ls, l.token ≠ .openParen)
    (hcs : ∀ c ∈ cs, Token.isInner c.token = true) (g g' : Text) :
    columnNames (ls ++ group g (cs.map fun c => [c]) g') = cs.flatMap (·.token.name?.toList) := by
  have hled := columnNames_led (cs.map fun c => (c, [])) hls
    (List.forall_mem_map.2 fun c hc => ⟨hcs c hc, rfl⟩) g g'
  rwa [List.map_map, List.flatMap_map] at hled

end Fragment

end TableDialects
