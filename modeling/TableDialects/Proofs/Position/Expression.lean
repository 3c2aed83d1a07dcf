import TableDialects.Column.Value
import TableDialects.Proofs.Position.Spots

/-!
# Default expressions by positions

Each reader gives the index of the last token of what it reads.
-/
namespace TableDialects.Position

section
variable (source : Text) (ts : List Spot)

/-- Whether a token goes on with a date or a time. -/
def isRunToken : Token → Bool
  | .number _ => true
  | .punct c => c == '-' || c == ':' || c == '.'
  | _ => false

def runEnd? : Nat → Option Nat :=
  advance? (fun last =>
    match ts[last + 1]? with
    | some next => do return (next.first == (← ts[last]?).last) && isRunToken next.token
    | none => some false) ts.length

def temporalEnd? (start : Nat) : Option Nat := do
  let dateEnd ← runEnd? ts start
  let date ← between? source ts start dateEnd
  if dateEnd = start || !Calendar.isDate date then return dateEnd
  else
    match tokenAt? ts (dateEnd + 1) with
    | some (.number _) => do
      let timeEnd ← runEnd? ts (dateEnd + 1)
      let time ← between? source ts (dateEnd + 1) timeEnd
      return if time.contains ':' then timeEnd else dateEnd
    | _ => return dateEnd

/-- The end of a word that is a value, with the arguments or the literal that touch it. -/
def wordEnd (first : Spot) (start : Nat) : Nat :=
  match ts[start + 1]? with
  | some next =>
    if next.token = .openParen && next.first == first.last then groupEnd ts (start + 1)
    else
      match next.token with
      | .quoted '\'' _ => if next.first = first.last then start + 1 else start
      | _ => start
  | none => start

/-- The end of the value at an index, if there is a value. -/
def valueEnd? (start : Nat) : Option (Option Nat) :=
  match ts[start]? with
  | none => some none
  | some first =>
    match first.token with
    | .quoted _ _ => some (some start)
    | .openParen => some (some (groupEnd ts start))
    | .word w =>
      some (if Text.oneOf DefaultValue.clauseKeywords w then none else some (wordEnd ts first start))
    | .number _ => (temporalEnd? source ts start).map some
    | .punct c =>
      some (if (c == '-' || c == '+') && (tokenAt? ts (start + 1)).any (·.isNumber) then
        some (start + 1) else none)
    | _ => some none

/-- The end of a cast whose operator is at an index. -/
def castEnd? (cast : Nat) : Option Nat :=
  match tokenAt? ts (cast + 1) with
  | some (.word _) => do
    let last ← advance? (fun last => some ((tokenAt? ts (last + 1)).any (·.isOneOf
      ["varying", "precision", "with", "without", "time", "zone"]))) ts.length (cast + 1)
    return if tokenAt? ts (last + 1) = some .openParen then groupEnd ts (last + 1) else last
  | _ => some cast

/-- The end after one more cast or event clause, if there is one. -/
def suffixEnd? (last : Nat) : Option (Option Nat) :=
  match tokenAt? ts (last + 1) with
  | some t =>
    if t = .cast then (castEnd? ts (last + 1)).map some
    else if t.isWord "ON" then do
      let value ← valueEnd? source ts (last + 3)
      return if (tokenAt? ts (last + 2)).any (·.isOneOf ["UPDATE", "INSERT"]) then value else none
    else some none
  | none => some none

/-- The source of a default expression and the index after it. -/
def expression? (start : Nat) : Option (Option (Text × Nat)) := do
  match ← valueEnd? source ts start with
  | none => return none
  | some value =>
    let last ← run? (suffixEnd? source ts) ts.length value
    let raw ← between? source ts start last
    return some (raw, last + 1)

end

open Lexeme DefaultValue

private theorem runLength_le (ls : List Lexeme) : runLength ls ≤ ls.length := by
  cases ls with
  | nil => exact Nat.le_refl 0
  | cons l ls =>
    have := (List.takeWhile_prefix (l := ls) continuesRun).length_le
    rw [runLength, List.length_cons]
    omega

private theorem temporalLength_le (ls : List Lexeme) : temporalLength ls ≤ ls.length := by
  have h₁ := runLength_le ls
  have h₂ := runLength_le (ls.drop (runLength ls))
  rw [List.length_drop] at h₂
  unfold temporalLength
  dsimp only
  split
  · exact h₁
  · split <;> omega

private theorem wordLength_le (l : Lexeme) (ls : List Lexeme) :
    wordLength (l :: ls) ≤ (l :: ls).length := by
  unfold wordLength
  split
  · next next rest h =>
    cases h
    split
    · simp
    · split
      · have := groupLength_le (List.cons_ne_nil next rest)
        rw [List.length_cons]
        omega
      · simp
      · simp
  · simp

private theorem runLength_pos {l : Lexeme} {ls : List Lexeme} : 0 < runLength (l :: ls) := by
  rw [runLength]
  omega

private theorem temporalLength_pos (l : Lexeme) (ls : List Lexeme) :
    0 < temporalLength (l :: ls) := by
  have hpos := @runLength_pos l ls
  unfold temporalLength
  dsimp only
  split
  · exact hpos
  · split <;> omega

private theorem wordLength_pos (ls : List Lexeme) : 0 < wordLength ls := by
  unfold wordLength
  split
  · split
    · exact Nat.one_pos
    · split <;> omega
  · exact Nat.one_pos

/-- A value takes at least one lexeme, and at most those there are. -/
theorem valueLength?_bounds {ls : List Lexeme} {n : Nat} (h : valueLength? ls = some n) :
    0 < n ∧ n ≤ ls.length := by
  unfold valueLength? at h
  split at h
  · cases h
  · next first rest =>
    split at h
    · cases h
      exact ⟨Nat.one_pos, by simp⟩
    · cases h
      exact ⟨by simp [groupLength], groupLength_le (List.cons_ne_nil _ _)⟩
    · split at h
      · cases h
      · cases h
        exact ⟨wordLength_pos _, wordLength_le _ _⟩
    · cases h
      exact ⟨temporalLength_pos _ _, temporalLength_le _⟩
    · split at h
      · next hsign =>
        cases h
        cases rest with
        | nil => simp at hsign
        | cons => exact ⟨Nat.two_pos, by simp⟩
      · cases h
    · cases h

private theorem castTypeLength_le (ls : List Lexeme) : castTypeLength ls ≤ ls.length := by
  cases ls with
  | nil => exact Nat.le_refl 0
  | cons first rest =>
    unfold castTypeLength
    dsimp only
    split
    · have hwords := (List.takeWhile_prefix (l := rest) (·.token.isOneOf
        ["varying", "precision", "with", "without", "time", "zone"])).length_le
      have hgroup := leadingGroup_le (rest.drop (rest.takeWhile (·.token.isOneOf
        ["varying", "precision", "with", "without", "time", "zone"])).length)
      rw [List.length_drop] at hgroup
      rw [List.length_cons]
      omega
    · exact Nat.zero_le _

theorem suffixLength?_bounds {ls : List Lexeme} {n : Nat} (h : suffixLength? ls = some n) :
    0 < n ∧ n ≤ ls.length := by
  unfold suffixLength? at h
  split at h
  · cases h
  · next first rest =>
    split at h
    · cases h
      have := castTypeLength_le rest
      rw [List.length_cons]
      omega
    · split at h
      · obtain ⟨m, hm, rfl⟩ := Option.map_eq_some_iff.1 h
        have := valueLength?_bounds hm
        rw [List.length_drop] at this
        rw [List.length_cons]
        omega
      · cases h

private theorem suffixesLength_le (ls : List Lexeme) : suffixesLength ls ≤ ls.length := by
  fun_induction suffixesLength ls with
  | case1 => exact Nat.zero_le _
  | case2 ls n hn hne ih =>
    have := (suffixLength?_bounds hn).2
    rw [List.length_drop] at ih
    omega
  | case3 => exact Nat.zero_le _

theorem suffixesLength_of_none {ls : List Lexeme} (h : suffixLength? ls = none) :
    suffixesLength ls = 0 := by
  rw [suffixesLength, h]

theorem suffixesLength_of_some {ls : List Lexeme} {n : Nat} (h : suffixLength? ls = some n) :
    suffixesLength ls = n + suffixesLength (ls.drop n) := by
  obtain ⟨hpos, hle⟩ := suffixLength?_bounds h
  obtain ⟨m, rfl⟩ := Nat.exists_eq_add_one_of_ne_zero (Nat.ne_of_gt hpos)
  have hne : ls.isEmpty = false := by
    cases ls with
    | nil => simp at hle
    | cons => rfl
  rw [suffixesLength, h]
  simp [hne]

private theorem continuesRun_eq (l : Lexeme) :
    continuesRun l = (l.gap.isEmpty && isRunToken l.token) := by
  unfold continuesRun isRunToken
  cases l.token <;> rfl

private theorem exists_of_drop {l m : Lexeme} {ls rest : List Lexeme} {k : Nat}
    (h : ls.drop k = m :: rest) : ∃ p, (l :: ls).drop k = p :: m :: rest := by
  have htail : ((l :: ls).drop k).tail = m :: rest := by
    rw [List.tail_drop, List.drop_succ_cons, h]
  cases hd : (l :: ls).drop k with
  | nil => simp [hd] at htail
  | cons p ps =>
    rw [hd] at htail
    exact ⟨p, by rw [← htail, List.tail_cons]⟩

namespace Placed

variable {source : Text} {ts : List Spot} {ls : List Lexeme} {l : Lexeme} {i : Nat}

private theorem runEnd? (h : Placed source (ts.drop i) (l :: ls)) :
    Position.runEnd? ts i = some (i + (ls.takeWhile continuesRun).length) := by
  have hlen := h.length
  rw [List.length_drop, List.length_cons] at hlen
  refine advance?_eq (by omega) fun k => ?_
  cases hd : ls.drop k with
  | nil =>
    have hnone := h.tokenAt? (k + 1)
    rw [List.drop_succ_cons, hd] at hnone
    have hend : ts[i + k + 1]? = none := by
      simpa [Position.tokenAt?, Nat.add_assoc] using hnone
    simp [hend]
  | cons m rest =>
    obtain ⟨p, hp⟩ := exists_of_drop (l := l) hd
    have hplaced := h.drop_add k
    rw [hp] at hplaced
    obtain ⟨s, t, hs, ht, -, htoken, hiff⟩ := hplaced.exists_touching
    have htouch : (t.first == s.last) = m.gap.isEmpty := by
      rw [Bool.eq_iff_iff, beq_iff_eq, List.isEmpty_iff, hiff]
    simp [hs, ht, htouch, htoken, continuesRun_eq]

private theorem temporalEnd? (h : Placed source (ts.drop i) (l :: ls)) :
    Position.temporalEnd? source ts i = some (i + (temporalLength (l :: ls) - 1)) := by
  have hrun := h.runEnd?
  have hle : (ls.takeWhile continuesRun).length ≤ ls.length :=
    (List.takeWhile_prefix continuesRun).length_le
  have hdate := h.between? hle
  have hlen : runLength (l :: ls) = (ls.takeWhile continuesRun).length + 1 := Nat.add_comm 1 _
  unfold temporalLength
  rw [hlen]
  generalize (ls.takeWhile continuesRun).length = w at *
  have hsame : decide (i + w = i) = decide (w + 1 = 1) := by
    simp
  rw [Position.temporalEnd?, hrun]
  simp only [Option.bind_eq_bind, Option.bind_some, hdate, hsame, List.drop_succ_cons]
  split
  · rfl
  · have hnext := h.tokenAt? (w + 1)
    rw [List.drop_succ_cons, ← Nat.add_assoc] at hnext
    rw [hnext]
    cases hd : ls.drop w with
    | nil => simp
    | cons m rest =>
      have hplaced := h.drop_add (w + 1)
      rw [List.drop_succ_cons, hd, ← Nat.add_assoc] at hplaced
      have hle : (rest.takeWhile continuesRun).length ≤ rest.length :=
        (List.takeWhile_prefix continuesRun).length_le
      have htime := hplaced.between? hle
      have hlen : runLength (m :: rest) = (rest.takeWhile continuesRun).length + 1 :=
        Nat.add_comm 1 _
      cases ht : m.token with
      | number d =>
        simp only [List.head?_cons, Option.map_some, ht, hplaced.runEnd?, Option.bind_some, htime,
          hlen, Option.any_some, Token.isNumber, Bool.true_and]
        split <;> simp
        omega
      | _ => simp [ht, Token.isNumber]

private theorem wordEnd (h : Placed source (ts.drop i) (l :: ls)) {first : Spot}
    (hi : ts[i]? = some first) : Position.wordEnd ts first i + 1 = i + wordLength (l :: ls) := by
  cases ls with
  | nil =>
    have hnone := h.tokenAt? 1
    have hend : ts[i + 1]? = none := by
      simpa [Position.tokenAt?] using hnone
    rw [Position.wordEnd, hend]
    rfl
  | cons m rest =>
    obtain ⟨s, t, hs, ht, -, htoken, hiff⟩ := h.exists_touching
    obtain rfl : first = s := by
      rw [hi] at hs
      exact Option.some.inj hs
    have htouch : (t.first == first.last) = m.gap.isEmpty := by
      rw [Bool.eq_iff_iff, beq_iff_eq, List.isEmpty_iff, hiff]
    have hgroup := h.tail.groupEnd
    rw [Position.wordEnd, ht, wordLength]
    simp only [htoken, htouch]
    cases hgap : m.gap.isEmpty with
    | false =>
      have hapart : t.first ≠ first.last := by
        rw [hgap, beq_eq_false_iff_ne] at htouch
        exact htouch
      simp only [Bool.and_false, Bool.false_eq_true, if_false, hapart, Bool.not_false, if_true]
      split <;> rfl
    | true =>
      have hjoined : t.first = first.last := by
        rw [hgap, beq_iff_eq] at htouch
        exact htouch
      simp only [Bool.and_true, decide_eq_true_eq, hjoined, if_true, Bool.not_true,
        Bool.false_eq_true, if_false]
      cases hm : m.token with
      | openParen =>
        simp only [if_true]
        omega
      | quoted q v =>
        simp only [reduceCtorEq, if_false]
        split <;> split <;> simp_all
      | _ => rfl

private theorem valueEnd? (h : Placed source (ts.drop i) ls) :
    Position.valueEnd? source ts i = some ((valueLength? ls).map fun n => i + (n - 1)) := by
  cases ls with
  | nil =>
    have hnone := h.tokenAt? 0
    have hend : ts[i]? = none := by
      simpa [Position.tokenAt?] using hnone
    rw [Position.valueEnd?, hend]
    rfl
  | cons l rest =>
    obtain ⟨t, ht, htoken⟩ := h.getElem?
    have hgroup := h.groupEnd
    have hword := h.wordEnd ht
    have hnext := h.tokenAt? 1
    rw [List.drop_succ_cons, List.drop_zero] at hnext
    rw [Position.valueEnd?, ht, valueLength?]
    simp only [htoken, hnext, h.temporalEnd?]
    cases l.token with
    | openParen =>
      have hpos : 0 < groupLength (l :: rest) := Nat.succ_pos _
      have hend : Position.groupEnd ts i = i + (groupLength (l :: rest) - 1) := by omega
      rw [hend]
      rfl
    | word w =>
      have hpos := wordLength_pos (l :: rest)
      have hend : Position.wordEnd ts t i = i + (wordLength (l :: rest) - 1) := by omega
      rw [hend]
      dsimp only
      split <;> rfl
    | punct c =>
      have hany : (rest.head?.map (·.token)).any (·.isNumber) =
          rest.head?.any (·.token.isNumber) := by
        cases rest <;> rfl
      rw [hany]
      dsimp only
      split <;> rfl
    | _ => rfl

private theorem castEnd? (h : Placed source (ts.drop (i + 1)) ls) :
    Position.castEnd? ts i = some (i + castTypeLength ls) := by
  have hnext := h.tokenAt? 0
  rw [Nat.add_zero, List.drop_zero] at hnext
  rw [Position.castEnd?, hnext]
  cases ls with
  | nil => rfl
  | cons first rest =>
    rw [castTypeLength]
    simp only [List.head?_cons, Option.map_some]
    cases first.token with
    | word w =>
      have hlen := h.length
      rw [List.length_drop, List.length_cons] at hlen
      have hwords := advance?_eq (p := fun l => l.token.isOneOf
          ["varying", "precision", "with", "without", "time", "zone"]) (g := rest) (n := ts.length)
        (i := i + 1) (f := fun last => some ((Position.tokenAt? ts (last + 1)).any (·.isOneOf
          ["varying", "precision", "with", "without", "time", "zone"]))) (by omega) fun k => by
        have htoken := h.tokenAt? (k + 1)
        rw [List.drop_succ_cons, ← Nat.add_assoc] at htoken
        rw [htoken]
        cases rest.drop k <;> rfl
      dsimp only
      rw [hwords]
      generalize (rest.takeWhile fun l => l.token.isOneOf
        ["varying", "precision", "with", "without", "time", "zone"]).length = w
      have hplaced := h.drop_add (w + 1)
      rw [List.drop_succ_cons, ← Nat.add_assoc] at hplaced
      have hfollowing := hplaced.tokenAt? 0
      rw [Nat.add_zero, List.drop_zero] at hfollowing
      simp only [Option.bind_eq_bind, Option.bind_some, hfollowing, leadingGroup]
      split
      · next hopen =>
        obtain ⟨m, following, hd⟩ : ∃ m following, rest.drop w = m :: following := by
          cases hd : rest.drop w with
          | nil => simp [hd] at hopen
          | cons m following => exact ⟨m, following, rfl⟩
        rw [hd] at hplaced
        have hgroup := hplaced.groupEnd
        rw [hd]
        simp only [Token.word?, Option.isSome_some, if_true, Option.pure_def, Option.some.injEq]
        omega
      · simp only [Token.word?, Option.isSome_some, if_true, Option.pure_def, Option.some.injEq]
        omega
    | _ => rfl

/-- One more cast or event clause. -/
theorem suffixEnd? (h : Placed source (ts.drop (i + 1)) ls) :
    Position.suffixEnd? source ts i = some ((suffixLength? ls).map (i + ·)) := by
  have hnext := h.tokenAt? 0
  rw [Nat.add_zero, List.drop_zero] at hnext
  rw [Position.suffixEnd?, hnext]
  cases ls with
  | nil => rfl
  | cons first rest =>
    rw [suffixLength?]
    simp only [List.head?_cons, Option.map_some]
    split
    · rw [h.tail.castEnd?]
      simp [Nat.add_assoc]
    · cases first.token.isWord "ON" with
      | false => rfl
      | true =>
        have hevent := h.tokenAt? 1
        rw [List.drop_succ_cons, List.drop_zero] at hevent
        have hvalue := (h.drop_add 2).valueEnd?
        rw [List.drop_succ_cons] at hvalue
        have hany : (rest.head?.map (·.token)).any (·.isOneOf ["UPDATE", "INSERT"]) =
            rest.head?.any (·.token.isOneOf ["UPDATE", "INSERT"]) := by
          cases rest <;> rfl
        simp only [if_true, Bool.true_and, hevent, hvalue, Option.bind_eq_bind, Option.bind_some,
          hany]
        split
        · cases hv : valueLength? (rest.drop 1) with
          | none => rfl
          | some n =>
            have hpos := (valueLength?_bounds hv).1
            simp only [Option.map_some, Option.pure_def, Option.some.injEq]
            omega
        · rfl

private theorem run?_suffixEnd? {n : Nat} (h : Placed source (ts.drop (i + 1)) ls)
    (hn : ls.length ≤ n) :
    run? (Position.suffixEnd? source ts) n i = some (i + suffixesLength ls) := by
  induction n generalizing i ls with
  | zero =>
    obtain rfl : ls = [] := List.length_eq_zero_iff.1 (Nat.le_zero.1 hn)
    have hstep : Position.suffixEnd? source ts i = some none := h.suffixEnd?
    rw [run?, hstep, suffixesLength_of_none rfl]
    rfl
  | succ n ih =>
    rw [run?, h.suffixEnd?]
    cases hs : suffixLength? ls with
    | none =>
      rw [suffixesLength_of_none hs]
      rfl
    | some m =>
      obtain ⟨hpos, hle⟩ := suffixLength?_bounds hs
      have hrest := h.drop_add m
      rw [Nat.add_right_comm] at hrest
      have hlen : (ls.drop m).length ≤ n := by
        rw [List.length_drop]
        omega
      rw [suffixesLength_of_some hs, ← Nat.add_assoc]
      exact ih hrest hlen

theorem expression? (h : Placed source (ts.drop i) ls) :
    Position.expression? source ts i = some ((expressionLength? ls).map fun n =>
      (sourceFromToken (ls.take n), i + n)) := by
  rw [Position.expression?, h.valueEnd?, expressionLength?]
  cases hv : valueLength? ls with
  | none => rfl
  | some n =>
    obtain ⟨hpos, hle⟩ := valueLength?_bounds hv
    obtain ⟨l, rest, rfl⟩ :=
      List.exists_cons_of_ne_nil (List.ne_nil_of_length_pos (Nat.lt_of_lt_of_le hpos hle))
    obtain ⟨m, rfl⟩ := Nat.exists_eq_add_one_of_ne_zero (Nat.ne_of_gt hpos)
    have hrest := h.drop_add (m + 1)
    have hlen := h.length
    have hsuffixes := suffixesLength_le ((l :: rest).drop (m + 1))
    rw [List.length_drop] at hlen hsuffixes
    have hrun := run?_suffixEnd? (i := i + m) (n := ts.length) hrest (by
      rw [List.length_drop]
      omega)
    simp only [Option.bind_eq_bind, Option.bind_some, Option.map_some, Nat.add_sub_cancel, hrun]
    generalize suffixesLength ((l :: rest).drop (m + 1)) = k at *
    have hraw := h.between? (k := m + k) (by
      rw [List.length_cons] at hsuffixes hle
      omega)
    rw [Nat.add_assoc i m k, hraw, Nat.add_right_comm m 1 k]
    rfl

end Placed

end TableDialects.Position
