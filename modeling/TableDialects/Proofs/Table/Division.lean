import TableDialects.Proofs.Table.Body
import TableDialects.Proofs.Token.Nesting

/-!
# Division of a body

The commas outside all parentheses divide a body. The fragments are the stretches between them that
are not empty, so each other lexeme stands in one fragment, together with all those that no such
comma parts from it.
-/
namespace TableDialects.Table

/-- A stretch of a list, from its first index to the one past its last. -/
structure Stretch where
  first : Nat
  past : Nat

namespace Stretch

variable {s : Stretch} {body : List Lexeme} {i j n : Nat}

instance : Membership Nat Stretch := ⟨fun s i => s.first ≤ i ∧ i < s.past⟩

/-- The lexemes of a body that stand in the stretch. -/
def slice (body : List Lexeme) (s : Stretch) : List Lexeme := (body.take s.past).drop s.first

def shift (n : Nat) (s : Stretch) : Stretch := ⟨n + s.first, n + s.past⟩

private theorem mem_def : i ∈ s ↔ s.first ≤ i ∧ i < s.past := Iff.rfl

private theorem mem_shift : n + i ∈ s.shift n ↔ i ∈ s := by
  simp [mem_def, shift]

private theorem le_of_mem_shift (h : i ∈ s.shift n) : n ≤ i := (Nat.le_add_right _ _).trans h.1

private theorem slice_shift (front body : List Lexeme) (s : Stretch) :
    (s.shift front.length).slice (front ++ body) = s.slice body := by
  rw [slice, shift, List.take_length_add_append, List.drop_length_add_append, slice]

private theorem slice_ne_nil_iff :
    s.slice body ≠ [] ↔ s.first < s.past ∧ s.first < body.length := by
  rw [← List.length_pos_iff, slice, List.length_drop, List.length_take]
  omega

end Stretch

open Stretch

/-- Where the pieces stand in a body, one lexeme lying between each and the next. -/
def stretches : List (List Lexeme) → List Stretch
  | [] => []
  | p :: ps => ⟨0, p.length⟩ :: (stretches ps).map (shift (p.length + 1))

variable {d d' : Nat} {l : Lexeme} {ls p body : List Lexeme} {ps : List (List Lexeme)} {i j : Nat}

/-- The pieces of lexemes that have `d` open parentheses in front of them. A comma that divides them
follows each piece but the last, and none stands within a piece. -/
inductive Cut : Nat → List Lexeme → List (List Lexeme) → Prop
  | last {d d' : Nat} {p : List Lexeme} (hp : Token.depthAfter d (p.map (·.token)) = some d') :
      Cut d p [p]
  | comma {d : Nat} {p rest : List Lexeme} {c : Lexeme} {ps : List (List Lexeme)}
      (hp : Token.depthAfter d (p.map (·.token)) = some 0) (hc : c.token = .comma)
      (h : Cut 0 rest ps) : Cut d (p ++ c :: rest) (p :: ps)

/-- A lexeme that does not divide joins the piece behind it. -/
theorem Cut.cons (h : Cut d' ls (p :: ps)) (hl : Token.depthAfter d [l.token] = some d') :
    Cut d (l :: ls) ((l :: p) :: ps) := by
  cases h with
  | last hp => exact .last (Token.depthAfter_cons.2 ⟨d', hl, hp⟩)
  | comma hp hc h =>
    rw [← List.cons_append]
    exact .comma (Token.depthAfter_cons.2 ⟨d', hl, hp⟩) hc h

private theorem cut_pieces (h : Token.Nested d (ls.map (·.token))) : Cut d ls (pieces d ls) := by
  induction ls generalizing d with
  | nil => exact .last rfl
  | cons l ls ih =>
    -- a comma that divides ends an empty first piece, any other lexeme joins what follows it
    obtain ⟨hl, hrest⟩ | ⟨e, hl, hrest⟩ := h.step
    · rw [pieces, if_pos hl, hl.2]
      exact .comma (p := []) rfl hl.1 (ih hrest)
    · obtain ⟨p, ps, hp, he⟩ := @pieces_append [l] ls d e hl
      rw [← List.singleton_append, he]
      exact Cut.cons (hp ▸ ih hrest) hl

/-- Each piece has a depth after it, no more parentheses being open in front of it than there are in
front of all lexemes. -/
theorem Cut.exists_depthAfter (h : Cut d ls ps) :
    ∀ p ∈ ps, ∃ e ≤ d, ∃ e', Token.depthAfter e (p.map (·.token)) = some e' := by
  induction h with
  | @last d d' p hp =>
    intro q hq
    obtain rfl := List.mem_singleton.1 hq
    exact ⟨d, Nat.le_refl d, d', hp⟩
  | @comma d p rest c ps hp hc h ih =>
    intro q hq
    obtain rfl | hq := List.mem_cons.1 hq
    · exact ⟨d, Nat.le_refl d, 0, hp⟩
    · obtain ⟨e, he, hq⟩ := ih q hq
      exact ⟨e, he.trans (Nat.zero_le d), hq⟩

/-- The pieces are what stands in their stretches. -/
theorem Cut.map_slice (h : Cut d ls ps) : (stretches ps).map (slice ls) = ps := by
  induction h with
  | last hp => simp [stretches, slice]
  | @comma d p rest c ps hp hc h ih =>
    -- the comma counts with what stands in front of the other pieces
    have hshift : (stretches ps).map (slice (p ++ c :: rest) ∘ shift (p.length + 1)) = ps := by
      refine Eq.trans (List.map_congr_left fun s _ => ?_) ih
      have := slice_shift (p ++ [c]) rest s
      rwa [List.length_append, List.length_singleton, List.append_assoc,
        List.singleton_append] at this
    rw [stretches, List.map_cons, List.map_map, hshift]
    simp [slice]

private theorem pairwise_stretches (ps : List (List Lexeme)) :
    (stretches ps).Pairwise fun s t => s.past < t.first := by
  induction ps with
  | nil => exact .nil
  | cons p ps ih =>
    rw [stretches, List.pairwise_cons, List.pairwise_map]
    refine ⟨List.forall_mem_map.2 fun s _ => ?_, ih.imp fun h => ?_⟩
    · exact Nat.lt_of_lt_of_le (Nat.lt_succ_self _) (Nat.le_add_right _ _)
    · exact Nat.add_lt_add_left h _

section
variable {rest : List Lexeme} {c : Lexeme} (hp : Token.depthAfter d (p.map (·.token)) = some 0)
  (hc : c.token = .comma)
include hp hc

/-- Behind a comma that divides, the lexemes are divided as they are by themselves. -/
theorem divides_behind_comma (k : Nat) :
    Token.Divides d ((p ++ c :: rest).map (·.token)) (p.length + 1 + k) ↔
      Token.Divides 0 (rest.map (·.token)) k := by
  have hcount : d + ((p ++ [c]).map (·.token)).count .openParen =
      0 + ((p ++ [c]).map (·.token)).count .closeParen := by
    have := Token.count_of_depthAfter hp
    simpa [hc] using this
  have hbehind := @Token.divides_append_right d 0 ((p ++ [c]).map (·.token))
    (rest.map (·.token)) k hcount
  rwa [← List.map_append, List.append_assoc, List.singleton_append, List.length_map,
    List.length_append, List.length_singleton] at hbehind

private theorem divides_at_comma : Token.Divides d ((p ++ c :: rest).map (·.token)) p.length := by
  have hat := @Token.divides_append_right d 0 (p.map (·.token)) ((c :: rest).map (·.token)) 0
    (Token.count_of_depthAfter hp)
  rw [← List.map_append, List.length_map, Nat.add_zero] at hat
  exact hat.2 (Token.divides_zero.2 ⟨hc, rfl⟩)

/-- The comma behind the first piece divides, and so do the commas that divide the rest. -/
theorem divides_append_comma : Token.Divides d ((p ++ c :: rest).map (·.token)) i ↔
    i = p.length ∨ ∃ k, i = p.length + 1 + k ∧ Token.Divides 0 (rest.map (·.token)) k := by
  constructor
  · intro hdivides
    obtain hi | rfl | hi := Nat.lt_trichotomy i p.length
    · rw [List.map_append] at hdivides
      exact absurd hdivides (Token.not_divides_append hp (by rwa [List.length_map]) _)
    · exact .inl rfl
    · obtain ⟨k, rfl⟩ := Nat.exists_eq_add_of_le (Nat.succ_le_of_lt hi)
      exact .inr ⟨k, rfl, (divides_behind_comma hp hc k).1 hdivides⟩
  · rintro (rfl | ⟨k, rfl, hdivides⟩)
    · exact divides_at_comma hp hc
    · exact (divides_behind_comma hp hc k).2 hdivides

end

/-- Two indices stand in one of the stretches. -/
def Together (ss : List Stretch) (i j : Nat) : Prop := ∃ s ∈ ss, i ∈ s ∧ j ∈ s

private theorem together_stretches_cons : Together (stretches (p :: ps)) i j ↔
    (i < p.length ∧ j < p.length) ∨
      ∃ i' j', i = p.length + 1 + i' ∧ j = p.length + 1 + j' ∧ Together (stretches ps) i' j' := by
  constructor
  · rintro ⟨s, hs, hi, hj⟩
    obtain rfl | hs := List.mem_cons.1 hs
    · exact .inl ⟨hi.2, hj.2⟩
    · obtain ⟨t, ht, rfl⟩ := List.mem_map.1 hs
      obtain ⟨i, rfl⟩ := Nat.exists_eq_add_of_le (le_of_mem_shift hi)
      obtain ⟨j, rfl⟩ := Nat.exists_eq_add_of_le (le_of_mem_shift hj)
      exact .inr ⟨i, j, rfl, rfl, t, ht, mem_shift.1 hi, mem_shift.1 hj⟩
  · rintro (⟨hi, hj⟩ | ⟨i, j, rfl, rfl, s, hs, hi, hj⟩)
    · exact ⟨_, List.mem_cons_self, ⟨Nat.zero_le i, hi⟩, Nat.zero_le j, hj⟩
    · exact ⟨_, List.mem_cons_of_mem _ (List.mem_map_of_mem hs), mem_shift.2 hi, mem_shift.2 hj⟩

/-- Two lexemes stand together unless a comma from the one to the other divides. -/
theorem Cut.together_iff (h : Cut d ls ps) (hij : i ≤ j) : Together (stretches ps) i j ↔
    j < ls.length ∧ ∀ k, i ≤ k → k ≤ j → ¬Token.Divides d (ls.map (·.token)) k := by
  induction h generalizing i j with
  | @last d d' p hp =>
    rw [together_stretches_cons]
    have hnot := Token.not_divides hp
    constructor
    · rintro (⟨-, hj⟩ | ⟨-, -, -, -, s, hs, -⟩)
      · exact ⟨hj, fun k _ _ => hnot k⟩
      · exact absurd hs List.not_mem_nil
    · rintro ⟨hj, -⟩
      exact .inl ⟨Nat.lt_of_le_of_lt hij hj, hj⟩
  | @comma d p rest c ps hp hc h ih =>
    have hdivides (k : Nat) := @divides_append_comma d p k rest c hp hc
    have hlength : (p ++ c :: rest).length = p.length + 1 + rest.length := by
      simp only [List.length_append, List.length_cons]
      omega
    rw [together_stretches_cons, hlength]
    constructor
    · rintro (⟨-, hj⟩ | ⟨i, j, rfl, rfl, htogether⟩)
      · refine ⟨by omega, fun k _ hk hdiv => ?_⟩
        obtain rfl | ⟨m, rfl, -⟩ := (hdivides k).1 hdiv <;> omega
      · obtain ⟨hj, hnot⟩ := (ih (by omega)).1 htogether
        refine ⟨by omega, fun k hik hkj hdiv => ?_⟩
        obtain rfl | ⟨m, rfl, hm⟩ := (hdivides k).1 hdiv
        · omega
        · exact hnot m (by omega) (by omega) hm
    · rintro ⟨hj, hnot⟩
      -- the comma behind the first piece is not among them
      have hside : j < p.length ∨ p.length < i := by
        by_contra hside
        exact hnot p.length (by omega) (by omega) ((hdivides _).2 (.inl rfl))
      obtain hj | hi := hside
      · exact .inl ⟨by omega, hj⟩
      · obtain ⟨j, rfl⟩ := Nat.exists_eq_add_of_le (Nat.succ_le_of_lt (hi.trans_le hij))
        obtain ⟨i, rfl⟩ := Nat.exists_eq_add_of_le (Nat.succ_le_of_lt hi)
        refine .inr ⟨i, j, rfl, rfl, (ih (by omega)).2 ⟨by omega, fun k hik hkj hdiv => ?_⟩⟩
        exact hnot _ (by omega) (by omega) ((hdivides _).2 (.inr ⟨k, rfl, hdiv⟩))

/-- An index stands in no two stretches that follow one another. -/
theorem eq_of_mem_of_mem {ss : List Stretch} (h : ss.Pairwise fun s t => s.past < t.first)
    {s t : Stretch} (hs : s ∈ ss) (ht : t ∈ ss) (his : i ∈ s) (hit : i ∈ t) : s = t := by
  rw [mem_def] at his hit
  induction h with
  | nil => exact absurd hs List.not_mem_nil
  | cons hfirst _ ih =>
    obtain rfl | hs' := List.mem_cons.1 hs <;> obtain rfl | ht' := List.mem_cons.1 ht
    · rfl
    · have := hfirst t ht'
      omega
    · have := hfirst s hs'
      omega
    · exact ih hs' ht'

/-- Stretches of a body that the commas outside all parentheses divide. -/
structure Division (body : List Lexeme) (ss : List Stretch) : Prop where
  /-- They are not empty and reach no farther than the body. -/
  proper : ∀ s ∈ ss, s.first < s.past ∧ s.past ≤ body.length
  /-- They follow one another. -/
  ordered : ss.Pairwise fun s t => s.past < t.first
  /-- They hold no comma that divides. -/
  undivided : ∀ s ∈ ss, ∀ i ∈ s, ¬Token.Divides 0 (body.map (·.token)) i
  /-- Any other lexeme stands in exactly one of them. -/
  covered : ∀ i < body.length, ¬Token.Divides 0 (body.map (·.token)) i → ∃! s, s ∈ ss ∧ i ∈ s
  /-- Two lexemes stand in the same one unless a comma that divides lies between them or is one of
  the two. -/
  together : ∀ i j, i ≤ j → j < body.length →
    (Together ss i j ↔ ∀ k, i ≤ k → k ≤ j → ¬Token.Divides 0 (body.map (·.token)) k)

/-- It is enough to know which lexemes stand together. -/
theorem division_of_together {ss : List Stretch} (hproper : ∀ s ∈ ss, s.first < s.past)
    (hordered : ss.Pairwise fun s t => s.past < t.first)
    (htogether : ∀ i j, i ≤ j → (Together ss i j ↔
      j < body.length ∧ ∀ k, i ≤ k → k ≤ j → ¬Token.Divides 0 (body.map (·.token)) k)) :
    Division body ss := by
  have halone : ∀ s ∈ ss, ∀ i ∈ s,
      i < body.length ∧ ¬Token.Divides 0 (body.map (·.token)) i := fun s hs i hi => by
    obtain ⟨hlt, hnot⟩ := (htogether i i (Nat.le_refl i)).1 ⟨s, hs, hi, hi⟩
    exact ⟨hlt, hnot i (Nat.le_refl i) (Nat.le_refl i)⟩
  refine
    { proper := fun s hs => ⟨hproper s hs, ?_⟩
      ordered := hordered
      undivided := fun s hs i hi => (halone s hs i hi).2
      covered := fun i hi hnot => ?_
      together := fun i j hij hj => ?_ }
  · have hpos := hproper s hs
    have := (halone s hs (s.past - 1) ⟨by omega, by omega⟩).1
    omega
  · obtain ⟨s, hs, his, -⟩ := (htogether i i (Nat.le_refl i)).2
      ⟨hi, fun k hik hki => Nat.le_antisymm hik hki ▸ hnot⟩
    exact ⟨s, ⟨hs, his⟩, fun t ⟨ht, hit⟩ => eq_of_mem_of_mem hordered ht hs hit his⟩
  · rw [htogether i j hij]
    exact and_iff_right hj

/-- The stretches of a body that are not empty divide it as its pieces do. -/
theorem Cut.division (h : Cut 0 body ps) :
    Division body ((stretches ps).filter fun s => !(s.slice body).isEmpty) := by
  have hmem : ∀ s, s ∈ (stretches ps).filter (fun s => !(s.slice body).isEmpty) ↔
      s ∈ stretches ps ∧ s.first < s.past ∧ s.first < body.length := fun s => by
    rw [List.mem_filter, ← slice_ne_nil_iff]
    simp
  refine division_of_together (fun s hs => ((hmem s).1 hs).2.1)
    ((pairwise_stretches ps).filter _) fun i j hij => ?_
  rw [← h.together_iff hij]
  constructor
  · rintro ⟨s, hs, hi, hj⟩
    exact ⟨s, ((hmem s).1 hs).1, hi, hj⟩
  · rintro ⟨s, hs, hi, hj⟩
    have hlt := ((h.together_iff hij).1 ⟨s, hs, hi, hj⟩).1
    exact ⟨s, (hmem s).2 ⟨hs, hi.1.trans_lt hi.2, hi.1.trans_lt (hij.trans_lt hlt)⟩, hi, hj⟩

/-- The fragments of a body are the stretches that the commas outside all parentheses divide it
into, in order. None is empty, and none has such a comma of its own. -/
theorem fragments_eq_map_slice (h : Token.Nested 0 (body.map (·.token))) :
    ∃ ss, Division body ss ∧ fragments body = ss.map (slice body) ∧
      ∀ f ∈ fragments body, f ≠ [] ∧ ∀ i, ¬Token.Divides 0 (f.map (·.token)) i := by
  have hcut := cut_pieces h
  have hslices := congrArg (List.filter (!·.isEmpty)) hcut.map_slice
  rw [List.filter_map] at hslices
  refine ⟨_, hcut.division, hslices.symm, fun f hf => ?_⟩
  obtain ⟨hf, hne⟩ := List.mem_filter.1 hf
  obtain ⟨e, he, e', hdepth⟩ := hcut.exists_depthAfter f hf
  rw [Nat.le_zero.1 he] at hdepth
  exact ⟨by simpa using hne, Token.not_divides hdepth⟩

/-- Lists in parentheses stay whole, also one that is never closed, and between two commas in a
row there is no fragment. -/
theorem fragments_eq_map_slice_nested :
    let body := tokenize "price DECIMAL(10, 2),, kind ENUM('a', 'b'), KEY ((price), kind(2, 3"
    Token.Nested 0 (body.map (·.token)) ∧
      (∃ ss, Division body ss ∧ fragments body = ss.map (slice body) ∧
        ∀ f ∈ fragments body, f ≠ [] ∧ ∀ i, ¬Token.Divides 0 (f.map (·.token)) i) ∧
      fragments body = [⟨0, 7⟩, ⟨9, 16⟩, ⟨17, 28⟩].map (slice body) := by
  intro body
  have hnested : Token.Nested 0 (body.map (·.token)) := by decide +kernel
  exact ⟨hnested, fragments_eq_map_slice hnested, by decide +kernel⟩

end TableDialects.Table
