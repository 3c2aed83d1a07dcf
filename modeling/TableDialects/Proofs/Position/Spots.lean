import TableDialects.Token.Group
import TableDialects.Proofs.Text.Slice
import TableDialects.Proofs.Token.Spelling

/-!
# Spots

A reader by positions sees the tokens of a source as a list of spots and works on indices into
it. Such a reader is written in `Option`: there is no value where it would leave the list, cut
the source at a wrong byte or go on without end.
-/
namespace TableDialects

private theorem exists_of_lt_length {α : Type} {xs : List α} {k : Nat} (h : k < xs.length) :
    ∃ as m bs, xs = as ++ m :: bs ∧ as.length = k :=
  ⟨xs.take k, xs[k], xs.drop (k + 1), by rw [List.getElem_cons_drop, List.take_append_drop],
    List.length_take_of_le (Nat.le_of_lt h)⟩

private theorem Lexeme.source_eq_gap_append (l : Lexeme) (ls : List Lexeme) :
    source (l :: ls) = l.gap ++ sourceFromToken (l :: ls) := by
  rw [source_cons, sourceFromToken]

namespace Token

theorem getElem?_of_closing? {ts : List Token} {depth n : Nat} (h : closing? depth ts = some n) :
    ts[n]? = some .closeParen := by
  fun_induction closing? depth ts generalizing n with
  | case1 => cases h
  | case2 depth ts ih =>
    obtain ⟨m, hm, rfl⟩ := Option.map_eq_some_iff.1 h
    exact ih hm
  | case3 =>
    cases h
    rfl
  | case4 depth ts _ ih =>
    obtain ⟨m, hm, rfl⟩ := Option.map_eq_some_iff.1 h
    exact ih hm
  | case5 depth t ts _ _ ih =>
    obtain ⟨m, hm, rfl⟩ := Option.map_eq_some_iff.1 h
    exact ih hm

/-- What follows the end of a group does not bear on it. -/
theorem closing?_congr {ts us vs : List Token} {depth n : Nat}
    (h : closing? depth (ts ++ us) = some n) (hn : n < ts.length) :
    closing? depth (ts ++ vs) = some n := by
  induction ts generalizing depth n with
  | nil => simp at hn
  | cons t ts ih =>
    have hstep : ∀ {d : Nat}, (closing? d (ts ++ us)).map (· + 1) = some n →
        (closing? d (ts ++ vs)).map (· + 1) = some n := by
      intro d hd
      obtain ⟨m, hm, rfl⟩ := Option.map_eq_some_iff.1 hd
      rw [ih hm (Nat.lt_of_succ_lt_succ hn)]
      rfl
    cases t with
    | openParen => exact hstep h
    | closeParen =>
      rw [List.cons_append, closing?] at h ⊢
      split
      · next hd => rwa [if_pos hd] at h
      · next hd => exact hstep (by rwa [if_neg hd] at h)
    | _ => exact hstep h

private theorem groupEnd_eq_add {ts : List Token} {i : Nat} (h : i < ts.length) :
    groupEnd ts i = i + groupEnd (ts.drop i) 0 := by
  unfold groupEnd
  rw [List.drop_zero]
  cases closing? 0 (ts.drop i) with
  | none =>
    simp only [List.length_drop]
    omega
  | some n => simp

/-- The end of a group lies within the tokens. -/
theorem groupEnd_lt {ts : List Token} (h : ts ≠ []) : groupEnd ts 0 < ts.length := by
  have hpos := List.length_pos_iff.2 h
  unfold groupEnd
  split
  · next n hn =>
    have := (List.getElem?_eq_some_iff.1 (getElem?_of_closing? hn)).1
    simpa using this
  · omega

/-- A group that is never closed ends with the last token. -/
theorem groupEnd_of_not_closeParen {ts : List Token} (h : ts[groupEnd ts 0]? ≠ some .closeParen) :
    groupEnd ts 0 = ts.length - 1 := by
  unfold groupEnd at h ⊢
  split
  · next n hn =>
    rw [hn] at h
    exact absurd (getElem?_of_closing? hn) (by simpa using h)
  · rfl

end Token

namespace Lexeme

theorem groupLength_le {ls : List Lexeme} (h : ls ≠ []) : groupLength ls ≤ ls.length := by
  have hne : ls.map (·.token) ≠ [] := by simpa using h
  have hlt := Token.groupEnd_lt hne
  rwa [List.length_map] at hlt

theorem leadingGroup_le (ls : List Lexeme) : leadingGroup ls ≤ ls.length := by
  unfold leadingGroup
  split
  · next h =>
    refine groupLength_le ?_
    rintro rfl
    simp at h
  · exact Nat.zero_le _

/-- A group has a token that closes it, or it reaches to the last token, which closes nothing. -/
theorem exists_group {l : Lexeme} (ls : List Lexeme) (hl : l.token = .openParen) :
    (∃ as c bs, ls = as ++ c :: bs ∧ c.token = .closeParen ∧
      groupLength (l :: ls) = as.length + 2 ∧ groupInner (l :: ls) = as ∧
      groupText (l :: ls) = source as ++ c.gap) ∨
    groupLength (l :: ls) = ls.length + 1 ∧
      (l :: ls).getLast?.map (·.token) ≠ some .closeParen ∧
      groupInner (l :: ls) = ls ∧ groupText (l :: ls) = source ls := by
  have hlt : Token.groupEnd ((l :: ls).map (·.token)) 0 < (l :: ls).length := groupLength_le (by simp)
  by_cases hclose : ((l :: ls).map (·.token))[Token.groupEnd ((l :: ls).map (·.token)) 0]? =
      some .closeParen
  · left
    obtain ⟨k, hk⟩ : ∃ k, Token.groupEnd ((l :: ls).map (·.token)) 0 = k + 1 := by
      refine Nat.exists_eq_add_one_of_ne_zero fun h => ?_
      rw [h] at hclose
      simp [hl] at hclose
    rw [hk] at hclose hlt
    obtain ⟨as, c, bs, rfl, rfl⟩ := exists_of_lt_length (Nat.lt_of_succ_lt_succ hlt)
    have hc : c.token = .closeParen := by simpa using hclose
    have htake : ((l :: (as ++ c :: bs)).take (groupLength (l :: (as ++ c :: bs)))).tail =
        as ++ [c] := by
      rw [groupLength, hk, List.take_succ_cons, List.tail_cons, List.append_cons]
      exact List.take_left' (by simp)
    refine ⟨as, c, bs, rfl, hc, by rw [groupLength, hk], ?_, ?_⟩
    · simp [groupInner, htake, hc]
    · simp [groupText, groupInner, htake, hc, Option.filter_some]
  · right
    have hend := Token.groupEnd_of_not_closeParen hclose
    rw [hend] at hclose
    have hlast : (l :: ls).getLast?.map (·.token) ≠ some .closeParen := by
      rwa [← List.getLast?_map, List.getLast?_eq_getElem?]
    have hlen : groupLength (l :: ls) = ls.length + 1 := by
      rw [groupLength, hend]
      simp
    have htake : ((l :: ls).take (groupLength (l :: ls))).tail = ls := by
      rw [hlen]
      simp
    have hinner : ls.getLast?.map (·.token) ≠ some .closeParen := by
      cases ls with
      | nil => simp
      | cons m ls => simpa using hlast
    refine ⟨hlen, hlast, ?_, ?_⟩
    · rw [groupInner, htake, if_neg hinner]
    · have hfilter : ls.getLast?.filter (·.token = .closeParen) = none := by
        cases hm : ls.getLast? with
        | none => rfl
        | some m => simpa [hm, Option.filter_some] using hinner
      rw [groupText, groupInner, htake, if_neg hinner, hfilter]
      exact List.append_nil _

end Lexeme

namespace Position

/-- A token and the bytes it takes, the last one excluded. -/
structure Spot where
  token : Token
  first : Nat
  last : Nat
  deriving DecidableEq, Repr, Inhabited

section
variable (source : Text) (ts : List Spot)

/-- The token at an index that may lie past the end. -/
def tokenAt? (i : Nat) : Option Token := ts[i]?.map (·.token)

def wordAt (i : Nat) (keyword : String) : Bool := (tokenAt? ts i).any (·.isWord keyword)

def groupEnd (i : Nat) : Nat := Token.groupEnd (ts.map (·.token)) i

/-- What follows the group that may begin at an index. -/
def skipGroup (i : Nat) : Nat :=
  if tokenAt? ts i = some .openParen then groupEnd ts i + 1 else i

/-- The spots between two indices. -/
def part? (first last : Nat) : Option (List Spot) :=
  if first ≤ last ∧ last ≤ ts.length then some ((ts.take last).drop first) else none

/-- The spots between the parenthesis at an index and the one that closes it, or the end. -/
def inner? (i : Nat) : Option (List Spot) := do
  let close := groupEnd ts i
  part? ts (i + 1) (if (← ts[close]?).token = .closeParen then close else ts.length)

/-- The source between the parenthesis at an index and the one that closes it, or the end. -/
def innerText? (i : Nat) : Option Text := do
  let last := match ts[groupEnd ts i]? with
    | some t => if t.token = .closeParen then t.first else t.last
    | none => Text.utf8Length source
  Text.slice? source (← ts[i]?).last last

/-- The source from the token at `i` to the token at `j`. -/
def between? (i j : Nat) : Option Text := do
  Text.slice? source (← ts[i]?).first (← ts[j]?).last

end

/-- The index at which a loop stops, which takes at most the given number of steps. -/
def run? (step : Nat → Option (Option Nat)) : Nat → Nat → Option Nat
  | 0, i => do
    match ← step i with
    | some _ => none
    | none => return i
  | n + 1, i => do
    match ← step i with
    | some j => run? step n j
    | none => return i

/-- Goes to the next index as long as a test of the index says so. -/
def advance? (f : Nat → Option Bool) : Nat → Nat → Option Nat :=
  run? fun i => (f i).map fun b => if b then some (i + 1) else none

theorem advance?_eq {α : Type} {p : α → Bool} {f : Nat → Option Bool} {g : List α} {n i : Nat}
    (hn : g.length ≤ n) (h : ∀ k, f (i + k) = some ((g.drop k).head?.any p)) :
    advance? f n i = some (i + (g.takeWhile p).length) := by
  induction g generalizing n i with
  | nil =>
    have hstop : f i = some false := by simpa using h 0
    cases n <;> simp [advance?, run?, hstop]
  | cons a g ih =>
    obtain ⟨n, rfl⟩ : ∃ m, n = m + 1 := ⟨n - 1, by simp at hn; omega⟩
    have hhead : f i = some (p a) := by simpa using h 0
    cases hp : p a with
    | false => simp [advance?, run?, hhead, hp]
    | true =>
      have hrest := ih (n := n) (i := i + 1) (by simpa using hn) fun k => by
        simpa [Nat.add_assoc, Nat.add_comm 1] using h (k + 1)
      rw [advance?] at hrest ⊢
      rw [run?]
      simp [hhead, hp, hrest]
      omega

/-- The spots of lexemes whose source begins at `offset`. -/
def spots (offset : Nat) : List Lexeme → List Spot
  | [] => []
  | l :: ls =>
    let first := offset + Text.utf8Length l.gap
    let last := first + Text.utf8Length l.text
    ⟨l.token, first, last⟩ :: spots last ls

private theorem map_token_spots (n : Nat) (ls : List Lexeme) :
    (spots n ls).map (·.token) = ls.map (·.token) := by
  induction ls generalizing n with
  | nil => rfl
  | cons l ls ih => rw [spots, List.map_cons, List.map_cons, ih]

private theorem length_spots (n : Nat) (ls : List Lexeme) : (spots n ls).length = ls.length := by
  simpa using congrArg List.length (map_token_spots n ls)

private theorem spots_append (n : Nat) (as bs : List Lexeme) :
    spots n (as ++ bs) = spots n as ++ spots (n + Text.utf8Length (Lexeme.source as)) bs := by
  induction as generalizing n with
  | nil => rfl
  | cons a as ih =>
    rw [List.cons_append, spots, ih, spots, Lexeme.source_cons, Text.utf8Length_append,
      Text.utf8Length_append]
    simp only [List.cons_append, Nat.add_assoc]

/-- The spots are those of the lexemes, which stand in the source one after the other. -/
structure Placed (source : Text) (ts : List Spot) (ls : List Lexeme) : Prop where
  exists_eq : ∃ u v, source = u ++ Lexeme.source ls ++ v ∧ ts = spots (Text.utf8Length u) ls
  text_ne_nil : ∀ l ∈ ls, l.text ≠ []

/-- Two readers find the same, and the lexemes that one leaves stand where the other stops. -/
inductive Agree {α : Type} (source : Text) (ts : List Spot) :
    Option (α × Nat) → Option (α × List Lexeme) → Prop
  | none : Agree source ts none none
  | some (a : α) {i : Nat} {ls : List Lexeme} (h : Placed source (ts.drop i) ls) :
      Agree source ts (some (a, i)) (some (a, ls))

namespace Placed

variable {source : Text} {ts : List Spot} {ls as bs : List Lexeme} {l m : Lexeme} {i : Nat}

theorem map_token (h : Placed source ts ls) : ts.map (·.token) = ls.map (·.token) := by
  obtain ⟨u, v, -, rfl⟩ := h.exists_eq
  exact map_token_spots _ ls

theorem length (h : Placed source ts ls) : ts.length = ls.length := by
  simpa using congrArg List.length h.map_token

theorem append (h : Placed source ts (as ++ bs)) :
    Placed source (ts.take as.length) as ∧ Placed source (ts.drop as.length) bs := by
  obtain ⟨u, v, hsource, rfl⟩ := h.exists_eq
  have hlen : as.length = (spots (Text.utf8Length u) as).length := (length_spots _ as).symm
  rw [Lexeme.source_append] at hsource
  refine ⟨⟨⟨u, Lexeme.source bs ++ v, ?_, ?_⟩, ?_⟩, ⟨⟨u ++ Lexeme.source as, v, ?_, ?_⟩, ?_⟩⟩
  · simpa using hsource
  · rw [spots_append, hlen, List.take_left]
  · exact fun l hl => h.text_ne_nil l (List.mem_append_left bs hl)
  · simpa using hsource
  · rw [spots_append, hlen, List.drop_left, Text.utf8Length_append]
  · exact fun l hl => h.text_ne_nil l (List.mem_append_right as hl)

private theorem drop (h : Placed source ts ls) (n : Nat) :
    Placed source (ts.drop n) (ls.drop n) := by
  rcases Nat.le_total n ls.length with hn | hn
  · have hdrop := (Placed.append (ls.take_append_drop n ▸ h)).2
    rwa [List.length_take_of_le hn] at hdrop
  · rw [List.drop_of_length_le (h.length ▸ hn), List.drop_of_length_le hn]
    exact ⟨⟨source, [], by simp, rfl⟩, by simp⟩

/-- From an index on to a later one. -/
theorem drop_add (h : Placed source (ts.drop i) ls) (n : Nat) :
    Placed source (ts.drop (i + n)) (ls.drop n) := by
  rw [← List.drop_drop]
  exact h.drop n

/-- The spots of the first lexemes from an index on. -/
theorem exists_part (h : Placed source (ts.drop i) (as ++ bs)) (hi : i ≤ ts.length) :
    ∃ q, part? ts i (i + as.length) = some q ∧ Placed source q as := by
  have hlen := h.length
  rw [List.length_drop, List.length_append] at hlen
  refine ⟨(ts.drop i).take as.length, ?_, h.append.1⟩
  rw [part?, if_pos ⟨Nat.le_add_right _ _, by omega⟩, List.drop_take, Nat.add_sub_cancel_left]

theorem tail (h : Placed source (ts.drop i) (l :: ls)) : Placed source (ts.drop (i + 1)) ls :=
  h.drop_add 1

theorem tokenAt? (h : Placed source (ts.drop i) ls) (k : Nat) :
    Position.tokenAt? ts (i + k) = (ls.drop k).head?.map (·.token) := by
  have htoken := congrArg (·[k]?) h.map_token
  simpa [Position.tokenAt?, List.head?_drop] using htoken

theorem wordAt (h : Placed source (ts.drop i) ls) (k : Nat) (keyword : String) :
    Position.wordAt ts (i + k) keyword = Lexeme.nextIs keyword (ls.drop k) := by
  rw [Position.wordAt, h.tokenAt? k]
  cases ls.drop k <;> rfl

/-- The first of the lexemes is at the index, and its text stands in the source. -/
theorem getElem? (h : Placed source (ts.drop i) (l :: ls)) :
    ∃ t, ts[i]? = some t ∧ t.token = l.token := by
  have htoken := h.tokenAt? 0
  simpa [Position.tokenAt?] using htoken

theorem exists_getElem? (h : Placed source (ts.drop i) ls) {k : Nat} (hk : k < ls.length) :
    ∃ m rest t, ls.drop k = m :: rest ∧ ts[i + k]? = some t ∧ t.token = m.token := by
  obtain ⟨m, rest, hd⟩ :=
    List.exists_cons_of_ne_nil (mt List.drop_eq_nil_iff.1 (Nat.not_le.2 hk))
  have hplaced := h.drop_add k
  rw [hd] at hplaced
  obtain ⟨t, ht, htoken⟩ := hplaced.getElem?
  exact ⟨m, rest, t, hd, ht, htoken⟩

theorem lt_length (h : Placed source (ts.drop i) ls) : i < ts.length ↔ ls ≠ [] := by
  have hlen := h.length
  rw [List.length_drop] at hlen
  rw [← List.length_pos_iff]
  omega

/-- The spots by the text in front of them. -/
theorem exists_before (h : Placed source (ts.drop i) ls) :
    ∃ u v, source = u ++ Lexeme.source ls ++ v ∧ ∀ as m bs, ls = as ++ m :: bs →
      ts[i + as.length]? = some
        ⟨m.token, Text.utf8Length (u ++ Lexeme.source as ++ m.gap),
          Text.utf8Length (u ++ Lexeme.source (as ++ [m]))⟩ := by
  obtain ⟨u, v, hsource, hspots⟩ := h.exists_eq
  refine ⟨u, v, hsource, ?_⟩
  rintro as m bs rfl
  have hlast : Lexeme.source (as ++ [m]) = Lexeme.source as ++ (m.gap ++ m.text) := by
    simp
  rw [← List.getElem?_drop, hspots, spots_append, spots,
    List.getElem?_append_right (Nat.le_of_eq (length_spots _ as)), length_spots, Nat.sub_self,
    hlast]
  simp only [List.getElem?_cons_zero, Text.utf8Length_append, Nat.add_assoc]

/-- Two tokens touch just if there is no gap between them. -/
theorem exists_touching (h : Placed source (ts.drop i) (l :: m :: ls)) :
    ∃ s t, ts[i]? = some s ∧ ts[i + 1]? = some t ∧ s.token = l.token ∧ t.token = m.token ∧
      (t.first = s.last ↔ m.gap = []) := by
  obtain ⟨u, v, -, hspot⟩ := h.exists_before
  refine ⟨_, _, hspot [] l (m :: ls) rfl, hspot [l] m ls rfl, rfl, rfl, ?_⟩
  rw [List.nil_append, Text.utf8Length_append (u ++ Lexeme.source [l])]
  constructor
  · intro hlen
    by_contra hne
    have hpos := Text.utf8Length_pos hne
    exact absurd hlen (Nat.ne_of_gt (Nat.lt_add_of_pos_right hpos))
  · intro hgap
    rw [hgap, Text.utf8Length_nil, Nat.add_zero]

/-- The source from one token to another. -/
theorem between? (h : Placed source (ts.drop i) (l :: ls)) {k : Nat} (hk : k ≤ ls.length) :
    Position.between? source ts i (i + k) =
      some (Lexeme.sourceFromToken ((l :: ls).take (k + 1))) := by
  obtain ⟨u, v, hsource, hspot⟩ := h.exists_before
  obtain ⟨as, m, bs, hls, hlen⟩ := @exists_of_lt_length _ (l :: ls) k (Nat.lt_succ_of_le hk)
  have htake : l :: ls.take k = as ++ [m] := by
    rw [← List.take_succ_cons, hls, List.append_cons, ← hlen]
    exact List.take_left' (by simp)
  have hfirst := hspot [] l ls rfl
  have hlast := hspot as m bs hls
  rw [List.length_nil, Nat.add_zero, Lexeme.source_nil, List.append_nil] at hfirst
  rw [hlen, ← htake, Lexeme.source_eq_gap_append, ← List.append_assoc,
    Text.utf8Length_append (u ++ l.gap)] at hlast
  have hall : source = u ++ l.gap ++ Lexeme.sourceFromToken (l :: ls.take k) ++
      (Lexeme.source bs ++ v) := by
    rw [hsource, hls, List.append_cons, Lexeme.source_append, ← htake,
      Lexeme.source_eq_gap_append]
    simp only [List.append_assoc]
  rw [Position.between?, hfirst, hlast, List.take_succ_cons]
  simp only [Option.bind_eq_bind, Option.bind_some]
  rw [hall, Text.slice?_append]

theorem groupEnd (h : Placed source (ts.drop i) (l :: ls)) :
    Position.groupEnd ts i + 1 = i + Lexeme.groupLength (l :: ls) := by
  have hi : i < ts.length := h.lt_length.2 (List.cons_ne_nil l ls)
  rw [Position.groupEnd, Token.groupEnd_eq_add (by simpa using hi), ← List.map_drop, h.map_token,
    Lexeme.groupLength, Nat.add_assoc]

/-- The lexemes inside a group stand at the places between its parentheses. -/
theorem exists_inner (h : Placed source (ts.drop i) (l :: ls)) (hl : l.token = .openParen) :
    ∃ q, Position.inner? ts i = some q ∧ Placed source q (Lexeme.groupInner (l :: ls)) := by
  have hlen := h.length
  rw [List.length_drop, List.length_cons] at hlen
  have hend := h.groupEnd
  rcases Lexeme.exists_group ls hl with ⟨as, c, bs, hls, hc, hgroup, hinner, -⟩ |
    ⟨hgroup, hlast, hinner, -⟩
  · subst hls
    replace hend : Position.groupEnd ts i = i + 1 + as.length := by omega
    have hclose := h.tail.drop_add as.length
    rw [List.drop_left] at hclose
    obtain ⟨t, ht, htoken⟩ := hclose.getElem?
    obtain ⟨q, hpart, hplaced⟩ := h.tail.exists_part (by omega)
    refine ⟨q, ?_, by rwa [hinner]⟩
    rw [Position.inner?, hend, ht]
    simp [htoken, hc, hpart]
  · replace hend : Position.groupEnd ts i = i + ls.length := by omega
    obtain ⟨m, hm⟩ : ∃ m, (l :: ls).drop ls.length = [m] := by
      obtain ⟨as, m, hm⟩ : ∃ as m, l :: ls = as ++ [m] :=
        ⟨_, _, (List.dropLast_append_getLast (List.cons_ne_nil l ls)).symm⟩
      have hlen := congrArg List.length hm
      simp at hlen
      exact ⟨m, by rw [hm, hlen, List.drop_left]⟩
    have hclose := h.drop_add ls.length
    rw [hm] at hclose
    obtain ⟨t, ht, htoken⟩ := hclose.getElem?
    have hne : t.token ≠ .closeParen := by
      rw [← List.take_append_drop ls.length (l :: ls), hm] at hlast
      simpa [htoken] using hlast
    have hpart : part? ts (i + 1) ts.length = some (ts.drop (i + 1)) := by
      rw [part?, if_pos ⟨by omega, Nat.le_refl _⟩, List.take_length]
    refine ⟨ts.drop (i + 1), ?_, ?_⟩
    · rw [Position.inner?, hend, ht]
      simp [hne, hpart]
    · rw [hinner]
      exact h.tail

/-- The text inside a group is the source between its parentheses. -/
theorem innerText? (h : Placed source (ts.drop i) (l :: ls)) (hl : l.token = .openParen) :
    Position.innerText? source ts i = some (Lexeme.groupText (l :: ls)) := by
  have hend := h.groupEnd
  obtain ⟨u, v, hsource, hspot⟩ := h.exists_before
  have hfirst := hspot [] l ls rfl
  rw [List.length_nil, Nat.add_zero, List.nil_append] at hfirst
  rcases Lexeme.exists_group ls hl with ⟨as, c, bs, hls, hc, hgroup, -, htext⟩ |
    ⟨hgroup, hlast, -, htext⟩
  · subst hls
    have hclose := hspot (l :: as) c bs rfl
    replace hend : Position.groupEnd ts i = i + (l :: as).length := by
      rw [List.length_cons]
      omega
    have hall : source = u ++ Lexeme.source [l] ++ (Lexeme.source as ++ c.gap) ++
        (c.text ++ Lexeme.source bs ++ v) := by
      rw [hsource]
      simp
    have hoffset : Text.utf8Length (u ++ Lexeme.source (l :: as) ++ c.gap) =
        Text.utf8Length (u ++ Lexeme.source [l]) +
          Text.utf8Length (Lexeme.source as ++ c.gap) := by
      rw [← Text.utf8Length_append]
      simp
    rw [Position.innerText?, hend, hfirst, hclose, htext, hoffset]
    simp only [hc, if_true, Option.bind_eq_bind, Option.bind_some]
    rw [hall, Text.slice?_append]
  · obtain ⟨as, m, hm⟩ : ∃ as m, l :: ls = as ++ [m] :=
      ⟨_, _, (List.dropLast_append_getLast (List.cons_ne_nil l ls)).symm⟩
    have hclose := hspot as m [] hm
    replace hend : Position.groupEnd ts i = i + as.length := by
      have hlen := congrArg List.length hm
      simp only [List.length_cons, List.length_append, List.length_nil] at hlen
      omega
    have hne : m.token ≠ .closeParen := by
      rw [hm] at hlast
      simpa using hlast
    have hall : source = u ++ Lexeme.source [l] ++ Lexeme.source ls ++ v := by
      rw [hsource]
      simp
    have hoffset : Text.utf8Length (u ++ Lexeme.source (l :: ls)) =
        Text.utf8Length (u ++ Lexeme.source [l]) + Text.utf8Length (Lexeme.source ls) := by
      rw [← Text.utf8Length_append]
      simp
    rw [Position.innerText?, hend, hfirst, hclose, ← hm, htext, hoffset]
    simp only [hne, if_false, Option.bind_eq_bind, Option.bind_some]
    rw [hall, Text.slice?_append]

theorem skipGroup (h : Placed source (ts.drop i) ls) :
    Position.skipGroup ts i = i + Lexeme.leadingGroup ls := by
  have htoken := h.tokenAt? 0
  rw [Nat.add_zero, List.drop_zero] at htoken
  rw [Position.skipGroup, Lexeme.leadingGroup, htoken]
  split
  · cases ls with
    | nil => simp at *
    | cons l ls => exact h.groupEnd
  · rfl

end Placed

end Position

end TableDialects
