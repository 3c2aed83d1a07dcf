import TableDialects.Proofs.Position.Fragment
import TableDialects.Proofs.Position.Lexer
import TableDialects.Proofs.Table.Body

/-!
# Statements by positions

The reader of a statement works on indices and byte offsets from the first token to the last.
Every index and every slice it takes is one that is there, and every loop ends.
-/
namespace TableDialects.Position

open Lexeme

section
variable (source : Text) (ts : List Spot)

/-- The parts of a qualified name from the point at an index on, at most `n` of them. -/
def nameParts? : Nat → Nat → Option (Option (List Text × Nat))
  | 0, i => if tokenAt? ts i = some (.punct '.') then none else some (some ([], i))
  | n + 1, i =>
    if tokenAt? ts i = some (.punct '.') then
      match (tokenAt? ts (i + 1)).bind Token.name? with
      | some name => do
        let following ← nameParts? n (i + 2)
        return following.map fun p => (name :: p.1, p.2)
      | none => some none
    else some (some ([], i))

/-- The table name at an index, and the index of the parenthesis after it. -/
def nameAt? (i : Nat) : Option (Option (Text × Nat)) :=
  match (tokenAt? ts i).bind Token.name? with
  | none => some none
  | some first => do
    let parts ← nameParts? ts ts.length (i + 1)
    return parts.bind fun p =>
      if tokenAt? ts p.2 = some .openParen then some (Text.join "." (first :: p.1), p.2) else none

/-- The table name after the word `CREATE`, and the index of the opening parenthesis. -/
def headerAfterCreate? (start : Nat) : Option (Option (Text × Nat)) := do
  let i ← advance? (fun i => some ((tokenAt? ts i).any (·.isOneOf
    ["TEMPORARY", "TEMP", "UNLOGGED", "GLOBAL", "LOCAL"]))) ts.length start
  if wordAt ts i "TABLE" then
    nameAt? ts (if wordAt ts (i + 1) "IF" && wordAt ts (i + 2) "NOT" && wordAt ts (i + 3) "EXISTS"
      then i + 4 else i + 1)
  else return none

/-- The table header that may begin at an index. -/
def headerAt? (i : Nat) : Option (Option (Text × Nat)) := do
  if (← ts[i]?).token.isWord "CREATE" then headerAfterCreate? ts (i + 1) else return none

/-- The first table header of a statement. -/
def header? : Option (Option (Text × Nat)) := (List.range ts.length).findSomeM? (headerAt? ts)

/-- The pieces of a body between its commas. The list are the spots from index `i` on, `depth`
parentheses are open there and the last piece begins at `start`. -/
def pieces? (body : List Spot) (i depth start : Nat) : List Spot → Option (List (List Spot))
  | [] => (part? body start body.length).map fun p => [p]
  | t :: rest =>
    match t.token with
    | .openParen => pieces? body (i + 1) (depth + 1) start rest
    | .closeParen => pieces? body (i + 1) (depth - 1) start rest
    | .comma =>
      if depth = 0 then do
        let piece ← part? body start i
        return piece :: (← pieces? body (i + 1) depth (i + 1) rest)
      else pieces? body (i + 1) depth start rest
    | _ => pieces? body (i + 1) depth start rest

/-- The table that the statement with these tokens defines. -/
def table? : Option Table.Outcome := do
  match ← header? ts with
  | none => return ⟨.error .noTable, []⟩
  | some (name, i) =>
    let body ← inner? ts i
    let pieces ← pieces? body 0 0 0 body
    let rs ← (pieces.filter (!·.isEmpty)).mapM (fragment? source)
    return ⟨Table.assemble name (rs.filterMap fun r => r.result.toOption),
      rs.flatMap Table.Reading.problems⟩

end

/-- The table that a statement defines, read by positions throughout. -/
def read? (statement : Text) : Option Table.Outcome := do
  let ts ← spotsOf? statement statement.length statement
  table? statement ts

variable {source : Text} {ts : List Spot} {ls : List Lexeme} {i : Nat}

theorem nameParts?_of_not_point {ls : List Lexeme}
    (h : ls.head?.map (·.token) ≠ some (.punct '.')) : Table.nameParts? ls = some ([], ls) := by
  unfold Table.nameParts?
  split
  · simp at h
  · simp at h
  · rfl

/-- The name after the keyword `TABLE` and before the opening parenthesis. -/
def nameBefore? (ls : List Lexeme) : Option (Text × List Lexeme) :=
  (ls.head?.bind (·.token.name?)).bind fun first =>
    (Table.nameParts? (ls.drop 1)).bind fun p =>
      if p.2.head?.map (·.token) = some .openParen then some (Text.join "." (first :: p.1), p.2)
      else none

theorem headerAfterCreate?_eq (ls : List Lexeme) :
    Table.headerAfterCreate? ls =
      let g := ls.dropWhile (·.token.isOneOf ["TEMPORARY", "TEMP", "UNLOGGED", "GLOBAL", "LOCAL"])
      if nextIs "TABLE" g then
        nameBefore? (g.drop (if nextIs "IF" (g.drop 1) && nextIs "NOT" (g.drop 2) &&
          nextIs "EXISTS" (g.drop 3) then 4 else 1))
      else none := by
  rw [Table.headerAfterCreate?]
  generalize ls.dropWhile (·.token.isOneOf
    ["TEMPORARY", "TEMP", "UNLOGGED", "GLOBAL", "LOCAL"]) = g
  cases hg : nextIs "TABLE" g with
  | false =>
    dsimp only
    rw [hg]
    rfl
  | true =>
    have hdrop : g.drop (if nextIs "IF" (g.drop 1) && nextIs "NOT" (g.drop 2) &&
          nextIs "EXISTS" (g.drop 3) then 4 else 1) =
        if nextIs "IF" (g.drop 1) && nextIs "NOT" ((g.drop 1).drop 1) &&
          nextIs "EXISTS" ((g.drop 1).drop 2) then (g.drop 1).drop 3 else g.drop 1 := by
      rw [List.drop_drop, List.drop_drop, List.drop_drop]
      split <;> rfl
    dsimp only
    rw [hg, if_pos rfl, hdrop, nameBefore?]
    generalize (if nextIs "IF" (g.drop 1) && nextIs "NOT" ((g.drop 1).drop 1) &&
      nextIs "EXISTS" ((g.drop 1).drop 2) then (g.drop 1).drop 3 else g.drop 1) = ms
    cases ms.head?.bind (·.token.name?) with
    | none => rfl
    | some first =>
      cases Table.nameParts? (ms.drop 1) with
      | none => rfl
      | some p =>
        simp only [guard, if_true, Option.bind_eq_bind, Option.bind_some, Option.pure_def]
        split <;> rfl

/-- A header ends before an opening parenthesis. -/
theorem exists_of_headerAfterCreate? {name : Text} {rest : List Lexeme}
    (h : Table.headerAfterCreate? ls = some (name, rest)) :
    ∃ l ms, rest = l :: ms ∧ l.token = .openParen := by
  rw [headerAfterCreate?_eq] at h
  dsimp only at h
  split at h
  · rw [nameBefore?] at h
    obtain ⟨first, -, h⟩ := Option.bind_eq_some_iff.1 h
    obtain ⟨p, -, h⟩ := Option.bind_eq_some_iff.1 h
    split at h
    · next hopen =>
      cases h
      obtain ⟨l, hl, htoken⟩ := Option.map_eq_some_iff.1 hopen
      obtain ⟨ms, hms⟩ := List.head?_eq_some_iff.1 hl
      exact ⟨l, ms, hms, htoken⟩
    · cases h
  · cases h

theorem exists_of_header? {name : Text} {rest : List Lexeme}
    (h : Table.header? ls = some (name, rest)) : ∃ l ms, rest = l :: ms ∧ l.token = .openParen := by
  induction ls with
  | nil => cases h
  | cons l ls ih =>
    rw [Table.header?] at h
    split at h
    · rcases Option.or_eq_some_iff.1 h with h | ⟨-, h⟩
      · exact exists_of_headerAfterCreate? h
      · exact ih h
    · exact ih h

namespace Placed

private theorem nameParts? {n : Nat} (h : Placed source (ts.drop i) ls) (hn : ls.length ≤ n) :
    ∃ r, Position.nameParts? ts n i = some r ∧ Agree source ts r (Table.nameParts? ls) := by
  induction n generalizing i ls with
  | zero =>
    obtain rfl : ls = [] := List.length_eq_zero_iff.1 (Nat.le_zero.1 hn)
    have htoken := h.tokenAt? 0
    rw [Nat.add_zero] at htoken
    exact ⟨_, by simp [Position.nameParts?, htoken], .some [] h⟩
  | succ n ih =>
    have htoken := h.tokenAt? 0
    rw [Nat.add_zero, List.drop_zero] at htoken
    rw [Position.nameParts?, htoken]
    by_cases hpoint : ls.head?.map (·.token) = some (.punct '.')
    · obtain ⟨⟨g, t, k⟩, hl, hk⟩ := Option.map_eq_some_iff.1 hpoint
      obtain ⟨rest, rfl⟩ := List.head?_eq_some_iff.1 hl
      obtain rfl : k = .punct '.' := hk
      have hpart := h.tail.tokenAt? 0
      rw [Nat.add_zero, List.drop_zero] at hpart
      rw [if_pos hpoint, hpart]
      cases rest with
      | nil => exact ⟨none, rfl, .none⟩
      | cons part rest =>
        obtain ⟨r, hr, hagree⟩ := ih h.tail.tail (by
          rw [List.length_cons, List.length_cons] at hn
          omega)
        simp only [List.head?_cons, Option.map_some, Option.bind_some, Table.nameParts?]
        cases part.token.name? with
        | none => exact ⟨none, rfl, .none⟩
        | some name =>
          rw [hr]
          generalize Table.nameParts? rest = q at hagree
          cases hagree with
          | none => exact ⟨none, rfl, .none⟩
          | some names h => exact ⟨_, rfl, .some (name :: names) h⟩
    · rw [nameParts?_of_not_point hpoint, if_neg hpoint]
      exact ⟨_, rfl, .some [] h⟩

/-- The name at an index, and the index of the parenthesis after it. -/
theorem nameBefore? (h : Placed source (ts.drop i) ls) :
    ∃ r, Position.nameAt? ts i = some r ∧ Agree source ts r (Position.nameBefore? ls) := by
  have htoken := h.tokenAt? 0
  rw [Nat.add_zero, List.drop_zero] at htoken
  have hname : (Position.tokenAt? ts i).bind Token.name? = ls.head?.bind (·.token.name?) := by
    rw [htoken]
    cases ls <;> rfl
  rw [Position.nameAt?, Position.nameBefore?, hname]
  cases ls.head?.bind (·.token.name?) with
  | none => exact ⟨none, rfl, .none⟩
  | some first =>
    have hlen := h.length
    rw [List.length_drop] at hlen
    obtain ⟨r, hr, hagree⟩ := (h.drop_add 1).nameParts? (n := ts.length) (by
      rw [List.length_drop]
      omega)
    simp only [hr, Option.bind_eq_bind, Option.bind_some]
    generalize Table.nameParts? (ls.drop 1) = q at hagree
    cases hagree with
    | none => exact ⟨none, rfl, .none⟩
    | @some names j rest hrest =>
      have hopen := hrest.tokenAt? 0
      rw [Nat.add_zero, List.drop_zero] at hopen
      simp only [Option.bind_some, hopen]
      split
      · exact ⟨_, rfl, .some _ hrest⟩
      · exact ⟨none, rfl, .none⟩

private theorem headerAfterCreate? (h : Placed source (ts.drop i) ls) :
    ∃ r, Position.headerAfterCreate? ts i = some r ∧
      Agree source ts r (Table.headerAfterCreate? ls) := by
  let p (l : Lexeme) : Bool :=
    l.token.isOneOf ["TEMPORARY", "TEMP", "UNLOGGED", "GLOBAL", "LOCAL"]
  have hlen := h.length
  rw [List.length_drop] at hlen
  have hkinds := advance?_eq (p := p) (g := ls) (n := ts.length) (i := i)
    (f := fun i => some ((Position.tokenAt? ts i).any (·.isOneOf
      ["TEMPORARY", "TEMP", "UNLOGGED", "GLOBAL", "LOCAL"]))) (by omega) fun k => by
    rw [h.tokenAt? k]
    cases ls.drop k <;> rfl
  have hplaced : Placed source (ts.drop (i + (ls.takeWhile p).length)) (ls.dropWhile p) := by
    rw [← List.drop_drop]
    rw [← List.takeWhile_append_dropWhile (p := p) (l := ls)] at h
    exact h.append.2
  have hword := hplaced.wordAt
  have htable := hplaced.wordAt 0
  rw [Position.headerAfterCreate?, hkinds, headerAfterCreate?_eq]
  generalize i + (ls.takeWhile p).length = j at *
  change ∃ r, _ ∧ Agree source ts r (let g := ls.dropWhile p; _)
  generalize ls.dropWhile p = g at *
  simp only [List.drop_zero] at htable
  simp only [Option.bind_eq_bind, Option.bind_some, htable, hword]
  cases nextIs "TABLE" g with
  | false => exact ⟨none, rfl, .none⟩
  | true =>
    have hindex : (if nextIs "IF" (g.drop 1) && nextIs "NOT" (g.drop 2) &&
        nextIs "EXISTS" (g.drop 3) then j + 4 else j + 1) = j + if nextIs "IF" (g.drop 1) &&
          nextIs "NOT" (g.drop 2) && nextIs "EXISTS" (g.drop 3) then 4 else 1 := by
      split <;> rfl
    rw [hindex]
    generalize (if nextIs "IF" (g.drop 1) && nextIs "NOT" (g.drop 2) &&
      nextIs "EXISTS" (g.drop 3) then 4 else 1) = k
    exact (hplaced.drop_add k).nameBefore?

private theorem findSomeM?_headerAt? (h : Placed source (ts.drop i) ls) :
    ∃ r, (List.range' i ls.length).findSomeM? (Position.headerAt? ts) = some r ∧
      Agree source ts r (Table.header? ls) := by
  induction ls generalizing i with
  | nil => exact ⟨none, rfl, .none⟩
  | cons l ls ih =>
    obtain ⟨t, ht, htoken⟩ := h.getElem?
    obtain ⟨r, hr, hagree⟩ := ih h.tail
    rw [List.length_cons, List.range'_succ, List.findSomeM?, Position.headerAt?, ht, Table.header?]
    simp only [Option.bind_eq_bind, Option.bind_some, htoken]
    cases l.token.isWord "CREATE" with
    | false => exact ⟨r, hr, hagree⟩
    | true =>
      obtain ⟨q, hq, hfirst⟩ := h.tail.headerAfterCreate?
      simp only [if_true, hq]
      generalize Table.headerAfterCreate? ls = s at hfirst
      cases hfirst with
      | none => exact ⟨r, hr, hagree⟩
      | some name hrest => exact ⟨_, rfl, .some name hrest⟩

private theorem header? (h : Placed source ts ls) :
    ∃ r, Position.header? ts = some r ∧ Agree source ts r (Table.header? ls) := by
  have h₀ : Placed source (ts.drop 0) ls := h
  rw [Position.header?, List.range_eq_range', h.length]
  exact h₀.findSomeM?_headerAt?

/-- A spot goes on the open piece unless it is a comma outside parentheses. -/
theorem pieces?_cons {body : List Spot} {t : Spot} {rest : List Spot} {j depth start : Nat}
    (ht : ¬(t.token = .comma ∧ depth = 0)) : Position.pieces? body j depth start (t :: rest) =
      Position.pieces? body (j + 1) (depthBehind depth t.token) start rest := by
  obtain ⟨k, first, last⟩ := t
  cases k with
  | comma =>
    have hd : depth ≠ 0 := fun hd => ht ⟨rfl, hd⟩
    rw [Position.pieces?, if_neg hd]
    rfl
  | _ => rfl

private theorem exists_open_part {body : List Spot} {a c r : List Lexeme}
    (h : Placed source body (a ++ c ++ r)) :
    ∃ q, part? body a.length (a ++ c).length = some q ∧ Placed source q c := by
  have hlen := h.length
  rw [List.append_assoc] at h
  rw [List.length_append]
  exact h.append.2.exists_part (by simp at hlen; omega)

/-- The pieces of a body, `a` being those before, `c` the lexemes of the open one and `r` those
still to be read. -/
theorem pieces? {body : List Spot} {a c r : List Lexeme} {depth : Nat} {p : List Lexeme}
    {ps : List (List Lexeme)} (h : Placed source body (a ++ c ++ r))
    (hp : Table.pieces depth r = p :: ps) :
    ∃ qs, Position.pieces? body (a ++ c).length depth a.length (body.drop (a ++ c).length) =
        some qs ∧ List.Forall₂ (Placed source) qs ((c ++ p) :: ps) := by
  induction r generalizing a c depth p ps with
  | nil =>
    cases hp
    obtain ⟨q, hpart, hq⟩ := h.exists_open_part
    have hend : (a ++ c).length = body.length := by rw [h.length, List.append_nil]
    rw [hend] at hpart ⊢
    rw [List.drop_length, Position.pieces?, hpart, List.append_nil]
    exact ⟨_, rfl, .cons hq .nil⟩
  | cons l r ih =>
    have hrest : Placed source (body.drop (a ++ c).length) (l :: r) := h.append.2
    obtain ⟨t, ht, htoken⟩ := hrest.getElem?
    obtain ⟨hlt, rfl⟩ := List.getElem?_eq_some_iff.1 ht
    rw [List.drop_eq_getElem_cons hlt]
    by_cases hcomma : l.token = .comma ∧ depth = 0
    · -- the open piece ends and the next one begins
      obtain ⟨hcomma, rfl⟩ := hcomma
      rw [Table.pieces, if_pos ⟨hcomma, rfl⟩] at hp
      obtain ⟨rfl, rfl⟩ := List.cons.inj hp
      obtain ⟨q, hpart, hq⟩ := h.exists_open_part
      obtain ⟨p', ps', hp'⟩ := List.exists_cons_of_ne_nil (Table.pieces_ne_nil 0 r)
      obtain ⟨qs, hqs, hpieces⟩ := ih (a := a ++ c ++ [l]) (c := []) (by simpa using h) hp'
      rw [List.append_nil, @List.length_append _ (a ++ c), List.length_singleton] at hqs
      refine ⟨q :: qs, ?_, .cons (by rwa [List.append_nil]) (hp' ▸ hpieces)⟩
      rw [Position.pieces?, htoken, hcomma]
      simp only [if_true, hpart, hqs, Option.bind_eq_bind, Option.bind_some]
      rfl
    · obtain ⟨p', ps', hp'⟩ :=
        List.exists_cons_of_ne_nil (Table.pieces_ne_nil (depthBehind depth l.token) r)
      rw [Table.pieces_cons hcomma hp'] at hp
      obtain ⟨rfl, rfl⟩ := List.cons.inj hp
      obtain ⟨qs, hqs, hpieces⟩ := ih (a := a) (c := c ++ [l]) (by simpa using h) hp'
      refine ⟨qs, ?_, by simpa using hpieces⟩
      rw [pieces?_cons (htoken ▸ hcomma), htoken]
      simpa [Nat.add_assoc] using hqs

private theorem mapM_fragment? {qs : List (List Spot)} {ps : List (List Lexeme)}
    (h : List.Forall₂ (Placed source) qs ps) :
    (qs.filter (!·.isEmpty)).mapM (Position.fragment? source) =
      some ((ps.filter (!·.isEmpty)).map Fragment.read) := by
  induction h with
  | nil => rfl
  | @cons q p qs ps hqp _ ih =>
    have hempty : q.isEmpty = p.isEmpty := by
      rw [Bool.eq_iff_iff, List.isEmpty_iff_length_eq_zero, List.isEmpty_iff_length_eq_zero,
        hqp.length]
    rw [List.filter_cons, List.filter_cons, hempty]
    split
    · rw [List.mapM_cons, hqp.fragment?, ih]
      rfl
    · exact ih

private theorem table? (h : Placed source ts ls) :
    Position.table? source ts = some (match Table.header? ls with
      | none => ⟨.error .noTable, []⟩
      | some (name, ls) =>
        let rs := Table.readings (groupInner ls)
        ⟨Table.assemble name (rs.filterMap fun r => r.result.toOption),
          rs.flatMap Table.Reading.problems⟩) := by
  obtain ⟨r, hr, hagree⟩ := h.header?
  rw [Position.table?, hr]
  cases hh : Table.header? ls with
  | none =>
    rw [hh] at hagree
    cases hagree
    rfl
  | some header =>
    rw [hh] at hagree
    cases hagree with
    | @some name i rest hrest =>
      obtain ⟨l, ms, rfl, hl⟩ := exists_of_header? hh
      obtain ⟨body, hbody, hinner⟩ := hrest.exists_inner hl
      obtain ⟨p, ps, hp⟩ := List.exists_cons_of_ne_nil (Table.pieces_ne_nil 0 (groupInner (l :: ms)))
      obtain ⟨qs, hqs, hpieces⟩ := pieces? (a := []) (c := []) hinner hp
      have hread := mapM_fragment? hpieces
      rw [List.nil_append, ← hp] at hread
      have hqs : Position.pieces? body 0 0 0 body = some qs := hqs
      simp only [Option.bind_eq_bind, Option.bind_some, hbody, hqs, hread]
      rfl

end Placed

/-- No statement leads the reader to an index or a slice that is not there, or keeps it in a
loop: reading by positions always comes to an end, with what the library reads. -/
theorem read?_eq (statement : Text) : read? statement = some (Table.read statement) := by
  obtain ⟨ts, hts, hplaced⟩ := exists_spotsOf? statement
  rw [read?, hts]
  exact hplaced.table?

end TableDialects.Position
