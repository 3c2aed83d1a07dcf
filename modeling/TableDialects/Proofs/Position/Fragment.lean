import TableDialects.Proofs.Position.Expression
import TableDialects.Table.Fragment

/-!
# Fragments by positions

The reader of a column goes over its clauses with an index that each clause moves on, be it beyond
the last token.
-/
namespace TableDialects.Position

section
variable (source : Text) (ts : List Spot)

/-- The end of a generated column. Everything up to the keyword `AS` is passed over. -/
def generated? (start : Nat) : Option (Clause × Nat) := do
  let i ← advance? (fun i =>
    if i < ts.length then (ts[i]?).map fun t => !t.token.isWord "AS" else some false)
    ts.length start
  if wordAt ts (i + 1) "IDENTITY" then return (.autoIncrement, skipGroup ts (i + 2))
  else return (.other, skipGroup ts (i + 1))

/-- The clause that begins with the token `t` at an index, and the index after it. -/
def clauseOf? (t : Token) (i : Nat) : Option (Clause × Nat) :=
  if t.isWord "NOT" && wordAt ts (i + 1) "NULL" then some (.notNull, i + 2)
  else if t.isWord "PRIMARY" && wordAt ts (i + 1) "KEY" then some (.primaryKey, i + 2)
  else if t.isWord "KEY" then some (.primaryKey, i + 1)
  else if t.isWord "UNIQUE" then some (.other, i + if wordAt ts (i + 1) "KEY" then 2 else 1)
  else if t.isOneOf ["AUTO_INCREMENT", "AUTOINCREMENT", "IDENTITY"] then
    some (.autoIncrement, skipGroup ts (i + 1))
  else if t.isWord "GENERATED" then generated? ts (i + 1)
  else if t.isWord "DEFAULT" then
    (expression? source ts (i + 1)).map fun
      | some (raw, next) => (.defaultValue raw, next)
      | none => (.missingDefault, i + 1)
  else if t.isWord "COMMENT" then
    match tokenAt? ts (i + 1) with
    | some (.quoted _ text) => some (.comment text, i + 2)
    | _ => some (.other, i + 1)
  else if t.isWord "UNSIGNED" then some (.unsigned, i + 1)
  else if t.isOneOf ["COLLATE", "CHARSET"] then some (.other, i + 2)
  else if t.isWord "CHARACTER" && wordAt ts (i + 1) "SET" then some (.other, i + 3)
  else if t.isWord "ON" && wordAt ts (i + 1) "UPDATE" then
    (expression? source ts (i + 2)).map fun
      | some (raw, next) => (Clause.ofUpdate raw, next)
      | none => (.other, i + 2)
  else if t.isWord "ON" && (wordAt ts (i + 1) "DELETE" || wordAt ts (i + 1) "INSERT") then
    (expression? source ts (i + 2)).map fun
      | some (_, next) => (.other, next)
      | none => (.other, i + 2)
  else if t.isWord "CONSTRAINT" then some (.other, i + 2)
  else if t = .openParen then some (.other, groupEnd ts i + 1)
  else some (.other, i + 1)

/-- The clause at an index and the index after it. -/
def clause? (i : Nat) : Option (Clause × Nat) :=
  ts[i]?.bind fun first => clauseOf? source ts first.token i

/-- The clauses from an index on, at most `n` of them. -/
def clauses? : Nat → Nat → Option (List Clause)
  | 0, i => if i < ts.length then none else some []
  | n + 1, i =>
    if i < ts.length then do
      let (clause, next) ← clause? source ts i
      return clause :: (← clauses? n next)
    else some []

/-- The text between the parentheses that may follow the type, and the index after them. -/
def length? (i : Nat) : Option (Text × Nat) :=
  if tokenAt? ts i = some .openParen then
    (innerText? source ts i).map fun inner => (Text.trim inner, groupEnd ts i + 1)
  else some ([], i)

/-- A time zone at an index, as it is added to the type name. -/
def zoneAt? (i : Nat) : Option Text :=
  if wordAt ts (i + 1) "time" && wordAt ts (i + 2) "zone" then
    if wordAt ts i "with" then some " with time zone"
    else if wordAt ts i "without" then some " without time zone"
    else none
  else none

/-- The column whose name and type have been read, the type up to an index. -/
def column? (name typeName : Text) (start : Nat) : Option Draft := do
  let (length, i) ← length? source ts start
  let zone :=
    if Text.oneOf ["time", "timestamp"] (Text.lower typeName) then zoneAt? ts i else none
  let clauses ← clauses? source ts ts.length (if zone.isSome then i + 3 else i)
  return (clauses.foldl Draft.add (Column.draft name (typeName ++ zone.getD []) length)).finish

/-- The type name at an index and the index after it, if a word is there. -/
def typeName? (start : Nat) : Option (Option (Text × Nat)) :=
  match (tokenAt? ts start).bind Token.word? with
  | none => some none
  | some word =>
    if (Text.same word "double" && wordAt ts (start + 1) "precision") ||
        (Text.same word "character" && wordAt ts (start + 1) "varying") then do
      let second := ((← ts[start + 1]?).token.word?).getD []
      return some (word ++ ' ' :: second, start + 2)
    else some (some (word, start + 1))

/-- Whether the tokens are an index or a constraint with a name. -/
def isNamedIndex? : Option Bool := do
  let first ← ts[0]?
  match first.token with
  | .word word =>
    let tail ← Text.slice? source first.first (Text.utf8Length source)
    if tail.head? = some '\x60' then return false
    else if Text.same word "CONSTRAINT" then
      return (tokenAt? ts 2).any (·.isOneOf Fragment.constraintKeywords)
    else
      return Text.oneOf ["KEY", "INDEX", "FULLTEXT", "SPATIAL"] word &&
        (tokenAt? ts 1).any (·.name?.isSome) && tokenAt? ts 2 == some .openParen &&
        (tokenAt? ts 3).any (·.word?.isSome)
  | _ => return false

/-- The column names in the first group from an index on. -/
def columnNames? (start : Nat) : Option (List Text) := do
  let first ← (List.range' start (ts.length - start)).findM? fun i => do
    return (← ts[i]?).token == .openParen
  match first with
  | some i => return Fragment.entryNames 0 true ((← inner? ts i).map (·.token))
  | none => return []

/-- The index of the first `keyword KEY`. -/
def keyAt? (keyword : String) : Option (Option Nat) :=
  (List.range (ts.length - 1)).findM? fun i => do
    return (← ts[i]?).token.isWord keyword && (← ts[i + 1]?).token.isWord "KEY"

def constraint? : Option Fragment := do
  match ← keyAt? ts "PRIMARY" with
  | some i => return .primaryKey (← columnNames? ts (i + 2))
  | none =>
    match ← keyAt? ts "UNIQUE" with
    | some i => return .uniqueKey (← columnNames? ts (i + 2))
    | none => return .ignored

/-- The fragment of a table body that consists of the given tokens. -/
def fragment? : Option Fragment.Reading :=
  match ts[0]? with
  | none => some { result := .ok .ignored }
  | some first =>
    match first.token.name? with
    | none => some { result := .ok .ignored }
    | some name => do
      if ← isNamedIndex? source ts then return { result := .ok (← constraint? ts) }
      else
        match (← typeName? ts 1).filter (ColumnType.isRecognized ·.1) with
        | some (typeName, following) =>
          let d ← column? source ts name typeName following
          return { result := .ok (.column d.column d.inlinePrimary), problems := d.problems }
        | none =>
          if first.token.isOneOf Fragment.constraintKeywords then
            return { result := .ok (← constraint? ts) }
          else
            let typeName := ((tokenAt? ts 1).bind Token.word?).getD []
            return { result := .error (.unrecognizedType name typeName) }

end

/-- The first index in a range that passes a test. -/
theorem findM?_range' {p : Nat → Option Bool} {q : Nat → Bool} {i n : Nat}
    (hp : ∀ k < n, p (i + k) = some (q k)) :
    (∃ k < n, (List.range' i n).findM? p = some (some (i + k)) ∧ q k = true ∧
      ∀ j < k, q j = false) ∨
    (List.range' i n).findM? p = some none ∧ ∀ k < n, q k = false := by
  induction n generalizing i q with
  | zero => exact .inr ⟨rfl, fun k hk => absurd hk (Nat.not_lt_zero k)⟩
  | succ n ih =>
    have hhead : p i = some (q 0) := hp 0 (Nat.succ_pos n)
    have hrest := @ih (fun k => q (k + 1)) (i + 1) fun k hk => by
      rw [Nat.add_right_comm]
      exact hp (k + 1) (Nat.succ_lt_succ hk)
    rw [List.range'_succ, List.findM?, hhead]
    cases hq : q 0 with
    | true => exact .inl ⟨0, Nat.succ_pos n, rfl, hq, fun j hj => absurd hj (Nat.not_lt_zero j)⟩
    | false =>
      rcases hrest with ⟨k, hk, hfind, hqk, hbefore⟩ | ⟨hfind, hnone⟩
      · refine .inl ⟨k + 1, Nat.succ_lt_succ hk, ?_, hqk, ?_⟩
        · rw [Nat.add_right_comm] at hfind
          exact hfind
        · intro j hj
          cases j with
          | zero => exact hq
          | succ j => exact hbefore j (Nat.lt_of_succ_lt_succ hj)
      · refine .inr ⟨hfind, fun k hk => ?_⟩
        cases k with
        | zero => exact hq
        | succ k => exact hnone k (Nat.lt_of_succ_lt_succ hk)

private theorem dropWhile_not_eq_drop {α : Type} {q : α → Bool} {xs : List α} {k : Nat}
    (hlen : k ≤ xs.length) (hbefore : ∀ j < k, (xs.drop j).head?.any q = false)
    (hk : ∀ x ∈ (xs.drop k).head?, q x = true) : xs.dropWhile (fun x => !q x) = xs.drop k := by
  induction k generalizing xs with
  | zero =>
    cases xs with
    | nil => rfl
    | cons x xs => exact List.dropWhile_cons_of_neg (by simpa using hk)
  | succ k ih =>
    cases xs with
    | nil => rfl
    | cons x xs =>
      have hx : q x = false := by simpa using hbefore 0 (Nat.succ_pos k)
      rw [List.dropWhile_cons_of_pos (by simp [hx]), List.drop_succ_cons]
      exact ih (Nat.le_of_succ_le_succ hlen) (fun j hj => hbefore (j + 1) (Nat.succ_lt_succ hj)) hk

/-- The first place at which a list of lexemes goes on with two given words. -/
theorem afterKey?_eq {keyword : String} {ls : List Lexeme} {k : Nat}
    (hbefore : ∀ j < k, (Lexeme.nextIs keyword (ls.drop j) && Lexeme.nextIs "KEY" (ls.drop (j + 1)))
      = false) (hk : k < ls.length) :
    Fragment.afterKey? keyword ls =
      if Lexeme.nextIs keyword (ls.drop k) && Lexeme.nextIs "KEY" (ls.drop (k + 1)) then
        some (ls.drop (k + 2))
      else Fragment.afterKey? keyword (ls.drop (k + 1)) := by
  induction k generalizing ls with
  | zero =>
    cases ls with
    | nil => simp at hk
    | cons l ls => simp [Fragment.afterKey?, Lexeme.nextIs]
  | succ k ih =>
    cases ls with
    | nil => simp at hk
    | cons l ls =>
      have hl := hbefore 0 (Nat.succ_pos k)
      rw [Fragment.afterKey?, if_neg, ih (fun j hj => hbefore (j + 1) (Nat.succ_lt_succ hj))
        (Nat.lt_of_succ_lt_succ hk)]
      · rfl
      · simpa [Lexeme.nextIs] using hl

/-- Two chains of cases agree if they agree in each case. -/
theorem ite_eq_some {α β : Type} {c : Prop} [Decidable c] {f : α → β} {x y : α} {a b : Option β}
    (ha : a = some (f x)) (hb : b = some (f y)) :
    (if c then a else b) = some (f (if c then x else y)) := by
  split
  · exact ha
  · exact hb

namespace Placed

open Lexeme

variable {source : Text} {ts : List Spot} {ls : List Lexeme} {l : Lexeme} {i : Nat}

private theorem nextWord (h : Placed source (ts.drop (i + 1)) ls) (keyword : String) :
    Position.wordAt ts (i + 1) keyword = nextIs keyword ls :=
  h.wordAt 0 keyword

private theorem generated? (h : Placed source (ts.drop i) ls) :
    Position.generated? ts i =
      some ((Clause.ofGenerated ls).1, i + (Clause.ofGenerated ls).2) := by
  have hlen := h.length
  rw [List.length_drop] at hlen
  have hbefore := advance?_eq (p := fun l : Lexeme => !l.token.isWord "AS") (g := ls)
    (n := ts.length) (i := i) (f := fun i =>
      if i < ts.length then (ts[i]?).map fun t => !t.token.isWord "AS" else some false)
    (by omega) fun k => by
      have hplaced := h.drop_add k
      cases hd : ls.drop k with
      | nil =>
        rw [hd] at hplaced
        have hlt : ¬ i + k < ts.length := fun hlt => hplaced.lt_length.1 hlt rfl
        simp [hlt]
      | cons m rest =>
        rw [hd] at hplaced
        obtain ⟨t, ht, htoken⟩ := hplaced.getElem?
        have hlt : i + k < ts.length := hplaced.lt_length.2 (List.cons_ne_nil m rest)
        simp only [hlt, if_true, ht, htoken, Option.map_some, List.head?_cons, Option.any_some]
  unfold Clause.ofGenerated
  rw [Position.generated?, hbefore]
  generalize (ls.takeWhile fun l => !l.token.isWord "AS").length = before
  have hword := h.wordAt (before + 1) "IDENTITY"
  rw [← Nat.add_assoc] at hword
  have h₁ := (h.drop_add (before + 1)).skipGroup
  have h₂ := (h.drop_add (before + 2)).skipGroup
  simp only [Option.bind_eq_bind, Option.bind_some, hword]
  rw [Nat.add_assoc i before 2, Nat.add_assoc i before 1, h₁, h₂]
  split <;> simp [Nat.add_assoc]

private theorem clause? (h : Placed source (ts.drop i) (l :: ls)) :
    Position.clause? source ts i = some ((Clause.read l ls).1, i + 1 + (Clause.read l ls).2) := by
  obtain ⟨t, ht, htoken⟩ := h.getElem?
  have hnext := h.tail.nextWord
  have hskip := h.tail.skipGroup
  have hevent := (h.drop_add 2).expression?
  rw [List.drop_succ_cons] at hevent
  let after (p : Clause × Nat) : Clause × Nat := (p.1, i + 1 + p.2)
  change _ = some (after (Clause.read l ls))
  rw [Position.clause?, ht, Option.bind_some, htoken]
  unfold clauseOf? Clause.read
  rw [hnext, hnext, hnext, hnext, hnext, hnext]
  refine ite_eq_some (f := after) rfl ?_
  refine ite_eq_some (f := after) rfl ?_
  refine ite_eq_some (f := after) rfl ?_
  refine ite_eq_some (f := after) ?unique ?_
  case unique => split <;> rfl
  refine ite_eq_some (f := after) ?counting ?_
  case counting => rw [hskip]
  refine ite_eq_some (f := after) h.tail.generated? ?_
  refine ite_eq_some (f := after) ?default ?_
  case default =>
    rw [h.tail.expression?]
    cases DefaultValue.expressionLength? ls <;> rfl
  refine ite_eq_some (f := after) ?comment ?_
  case comment =>
    have htext := h.tail.tokenAt? 0
    rw [Nat.add_zero, List.drop_zero] at htext
    rw [htext]
    cases ls with
    | nil => rfl
    | cons m rest =>
      obtain ⟨gap, text, token⟩ := m
      cases token <;> rfl
  refine ite_eq_some (f := after) rfl ?_
  refine ite_eq_some (f := after) rfl ?_
  refine ite_eq_some (f := after) rfl ?_
  refine ite_eq_some (f := after) ?update ?_
  case update =>
    rw [hevent]
    cases DefaultValue.expressionLength? (ls.drop 1) with
    | none => rfl
    | some n =>
      simp only [after, Option.map_some, Option.some.injEq, Prod.mk.injEq, true_and]
      omega
  refine ite_eq_some (f := after) ?event ?_
  case event =>
    rw [hevent]
    cases DefaultValue.expressionLength? (ls.drop 1) with
    | none => rfl
    | some n =>
      simp only [after, Option.map_some, Option.getD_some, Option.some.injEq, Prod.mk.injEq,
        true_and]
      omega
  refine ite_eq_some (f := after) rfl ?_
  refine ite_eq_some (f := after) ?group rfl
  case group =>
    have hgroup := h.groupEnd
    have hpos : 0 < groupLength (l :: ls) := Nat.succ_pos _
    simp only [after, Option.some.injEq, Prod.mk.injEq, true_and]
    omega

/-- The clauses of a column. Each of them moves the index on. -/
theorem clauses? {n : Nat} (h : Placed source (ts.drop i) ls) (hn : ls.length ≤ n) :
    Position.clauses? source ts n i = some (Clause.readAll ls) := by
  induction n generalizing i ls with
  | zero =>
    obtain rfl : ls = [] := List.length_eq_zero_iff.1 (Nat.le_zero.1 hn)
    have hend : ¬ i < ts.length := fun hlt => h.lt_length.1 hlt rfl
    rw [Position.clauses?, if_neg hend, Clause.readAll]
  | succ n ih =>
    cases ls with
    | nil =>
      have hend : ¬ i < ts.length := fun hlt => h.lt_length.1 hlt rfl
      rw [Position.clauses?, if_neg hend, Clause.readAll]
    | cons l ls =>
      have hlt : i < ts.length := h.lt_length.2 (List.cons_ne_nil l ls)
      have hrest := ih (h.tail.drop_add (Clause.read l ls).2) (by
        rw [List.length_drop]
        rw [List.length_cons] at hn
        omega)
      rw [Position.clauses?, if_pos hlt, h.clause?, Clause.readAll]
      simp only [Option.bind_eq_bind, Option.bind_some, hrest, Option.pure_def]

private theorem length? (h : Placed source (ts.drop i) ls) :
    Position.length? source ts i =
      some (if leadingGroup ls = 0 then [] else Text.trim (groupText ls), i + leadingGroup ls) := by
  have htoken := h.tokenAt? 0
  rw [Nat.add_zero, List.drop_zero] at htoken
  rw [Position.length?, htoken, leadingGroup]
  split
  · next hopen =>
    cases ls with
    | nil => simp at hopen
    | cons l rest =>
      have hl : l.token = .openParen := by simpa using hopen
      have hpos : groupLength (l :: rest) ≠ 0 := Nat.succ_ne_zero _
      rw [h.innerText? hl, if_neg hpos, Option.map_some, h.groupEnd]
  · rfl

private theorem zoneAt? (h : Placed source (ts.drop i) ls) :
    Position.zoneAt? ts i = Column.zone? ls := by
  have h₀ := h.wordAt 0
  have h₁ := h.wordAt 1
  have h₂ := h.wordAt 2
  rw [Position.zoneAt?]
  simp only [Nat.add_zero] at h₀
  rw [h₀, h₀, h₁, h₂]
  match ls with
  | [] => rfl
  | [_] => rfl
  | [_, m] => simp [nextIs, Column.zone?]
  | first :: time :: zone :: rest => rfl

private theorem column? (h : Placed source (ts.drop i) ls) (name typeName : Text) :
    Position.column? source ts name typeName i = some (Column.read name typeName ls) := by
  have hrest := h.drop_add (leadingGroup ls)
  have hzone := hrest.zoneAt?
  have hlen := h.length
  rw [List.length_drop] at hlen
  rw [Position.column?, h.length?]
  simp only [Option.bind_eq_bind, Option.bind_some, hzone]
  unfold Column.read Column.zoneAfter?
  dsimp only
  generalize (if Text.oneOf ["time", "timestamp"] (Text.lower typeName) then
    Column.zone? (ls.drop (leadingGroup ls)) else none) = zone
  have hclauses : Position.clauses? source ts ts.length
      (if zone.isSome then i + leadingGroup ls + 3 else i + leadingGroup ls) =
      some (Clause.readAll (if zone.isSome then (ls.drop (leadingGroup ls)).drop 3
        else ls.drop (leadingGroup ls))) := by
    split
    · refine (hrest.drop_add 3).clauses? ?_
      rw [List.length_drop, List.length_drop]
      omega
    · refine hrest.clauses? ?_
      rw [List.length_drop]
      omega
  rw [hclauses]
  rfl

private theorem typeName? (h : Placed source (ts.drop i) ls) :
    ∃ r, Position.typeName? ts i = some r ∧ Agree source ts r (Fragment.typeName? ls) := by
  have htoken := h.tokenAt? 0
  rw [Nat.add_zero, List.drop_zero] at htoken
  rw [Position.typeName?, htoken]
  cases ls with
  | nil => exact ⟨none, rfl, .none⟩
  | cons l rest =>
    obtain ⟨gap, text, token⟩ := l
    cases token with
    | word first =>
      have hnext := h.tail.nextWord
      simp only [List.head?_cons, Option.map_some, Option.bind_some, Token.word?]
      cases rest with
      | nil => exact ⟨_, by simp [hnext, nextIs], .some first h.tail⟩
      | cons m rest =>
        obtain ⟨gap', text', token'⟩ := m
        cases token' with
        | word second =>
          obtain ⟨t, ht, ht'⟩ := h.tail.getElem?
          have hsame (keyword : String) :
              Position.wordAt ts (i + 1) keyword = Text.same second keyword := hnext keyword
          simp only [hsame, Fragment.typeName?]
          split
          · exact ⟨_, by simp [ht, ht'], .some (first ++ ' ' :: second) h.tail.tail⟩
          · exact ⟨_, rfl, .some first h.tail⟩
        | _ => exact ⟨_, by simp [hnext, nextIs, Token.isWord], .some first h.tail⟩
    | _ => exact ⟨none, rfl, .none⟩

private theorem isNamedIndex? (h : Placed source (ts.drop 0) (l :: ls)) :
    Position.isNamedIndex? source ts = some (Fragment.isNamedIndex (l :: ls)) := by
  obtain ⟨u, v, hsource, hspot⟩ := h.exists_before
  have hfirst := hspot [] l ls rfl
  have hat (k : Nat) : Position.tokenAt? ts (k + 1) = ls[k]?.map (·.token) := by
    have htoken := h.tokenAt? (k + 1)
    rwa [Nat.zero_add, List.drop_succ_cons, List.head?_drop] at htoken
  obtain ⟨c, text, htext⟩ := List.exists_cons_of_ne_nil (h.text_ne_nil l List.mem_cons_self)
  have htail : Text.slice? source (Text.utf8Length (u ++ l.gap)) (Text.utf8Length source) =
      some (c :: (text ++ Lexeme.source ls ++ v)) := by
    refine Text.slice?_eq_some_iff.2 ⟨u ++ l.gap, [], ?_, rfl, ?_⟩
    · simp [hsource, htext]
    · rw [← Text.utf8Length_append, hsource]
      simp [htext]
  rw [Position.isNamedIndex?, show ts[0]? = _ from hfirst]
  unfold Fragment.isNamedIndex
  simp only [Option.bind_eq_bind, Option.bind_some, Lexeme.source_nil, List.append_nil, htail, hat,
    htext, List.head?_cons]
  cases l.token with
  | word w =>
    simp only [Token.isWord, Token.isOneOf]
    by_cases hc : c = '\x60'
    · simp [hc]
    · have hne : (some c != some '\x60') = true := by simp [hc]
      simp only [hne, Bool.true_and, Option.some.injEq, hc, if_false]
      exact ite_eq_some (f := id) rfl rfl
  | _ => simp [Token.isWord, Token.isOneOf]

private theorem columnNames? (h : Placed source (ts.drop i) ls) :
    Position.columnNames? ts i = some (Fragment.columnNames ls) := by
  have hlen := h.length
  rw [List.length_drop] at hlen
  have hfirst := findM?_range' (p := fun i => do return (← ts[i]?).token == .openParen) (i := i)
    (q := fun k => (ls.drop k).head?.any (·.token == .openParen)) (n := ts.length - i)
    fun k hk => by
      obtain ⟨m, rest, t, hd, ht, htoken⟩ := h.exists_getElem? (k := k) (by omega)
      simp [ht, htoken, hd]
  rw [Position.columnNames?, Fragment.columnNames]
  rcases hfirst with ⟨k, hlt, hfind, hk, hbefore⟩ | ⟨hfind, hnone⟩
  · cases hd : ls.drop k with
    | nil => simp [hd] at hk
    | cons m rest =>
      rw [hd] at hk
      have hm : m.token = .openParen := by simpa using hk
      have hdrop : ls.dropWhile (·.token != .openParen) = m :: rest := by
        rw [← hd]
        exact dropWhile_not_eq_drop (by omega) hbefore (by simp [hd, hm])
      have hplaced := h.drop_add k
      rw [hd] at hplaced
      obtain ⟨q, hq, hinner⟩ := hplaced.exists_inner hm
      rw [hfind, hdrop]
      simp [hq, hinner.map_token]
  · have hdrop : ls.dropWhile (·.token != .openParen) = [] := by
      rw [← List.drop_length]
      refine dropWhile_not_eq_drop (Nat.le_refl _) (fun j hj => hnone j (by omega)) ?_
      simp
    rw [hfind, hdrop]
    rfl

/-- The first two words that begin a key. -/
theorem keyAt? (h : Placed source (ts.drop 0) ls) (keyword : String) :
    Position.keyAt? ts keyword = some none ∧ Fragment.afterKey? keyword ls = none ∨
      ∃ k, Position.keyAt? ts keyword = some (some k) ∧
        Fragment.afterKey? keyword ls = some (ls.drop (k + 2)) := by
  have hlen := h.length
  rw [List.length_drop] at hlen
  have hfirst := findM?_range' (p := fun i => do
      return (← ts[i]?).token.isWord keyword && (← ts[i + 1]?).token.isWord "KEY") (i := 0)
    (q := fun k => nextIs keyword (ls.drop k) && nextIs "KEY" (ls.drop (k + 1)))
    (n := ts.length - 1) fun k hk => by
      obtain ⟨m, rest, t, hd, ht, htoken⟩ := h.exists_getElem? (k := k) (by omega)
      obtain ⟨m', rest', t', hd', ht', htoken'⟩ := h.exists_getElem? (k := k + 1) (by omega)
      rw [← Nat.add_assoc] at ht'
      simp only [ht, ht', htoken, htoken', hd, hd', nextIs, Option.bind_eq_bind, Option.bind_some,
        Option.pure_def]
  rw [Position.keyAt?, List.range_eq_range']
  rcases hfirst with ⟨k, hlt, hfind, hk, hbefore⟩ | ⟨hfind, hnone⟩
  · right
    rw [Nat.zero_add] at hfind
    exact ⟨k, hfind, by rw [afterKey?_eq hbefore (by omega), if_pos hk]⟩
  · left
    refine ⟨hfind, ?_⟩
    cases ls with
    | nil => rfl
    | cons l rest =>
      rw [List.length_cons] at hlen
      rw [afterKey?_eq (k := rest.length) (fun j hj => hnone j (by omega)) (by simp)]
      simp [nextIs, Fragment.afterKey?]

private theorem constraint? (h : Placed source (ts.drop 0) ls) :
    Position.constraint? ts = some (Fragment.ofConstraint ls) := by
  have hnames (k : Nat) := (h.drop_add (k + 2)).columnNames?
  simp only [Nat.zero_add] at hnames
  rw [Position.constraint?, Fragment.ofConstraint]
  rcases h.keyAt? "PRIMARY" with ⟨hfind, hafter⟩ | ⟨k, hfind, hafter⟩
  · rcases h.keyAt? "UNIQUE" with ⟨hfind', hafter'⟩ | ⟨k, hfind', hafter'⟩
    · simp [hfind, hafter, hfind', hafter']
    · simp [hfind, hafter, hfind', hafter', hnames]
  · simp [hfind, hafter, hnames]

/-- A fragment is read by positions as by its lexemes. -/
theorem fragment? (h : Placed source ts ls) :
    Position.fragment? source ts = some (Fragment.read ls) := by
  have h₀ : Placed source (ts.drop 0) ls := h
  cases ls with
  | nil =>
    have hend : ts[0]? = none := by
      simpa [Position.tokenAt?] using h₀.tokenAt? 0
    rw [Position.fragment?, hend]
    rfl
  | cons first rest =>
    obtain ⟨t, ht, htoken⟩ := h₀.getElem?
    rw [Position.fragment?, ht, Fragment.read]
    simp only [htoken]
    cases first.token.name? with
    | none => rfl
    | some name =>
      have hword := h₀.tokenAt? 1
      rw [List.drop_succ_cons, List.drop_zero, Nat.zero_add] at hword
      have hname : (Position.tokenAt? ts 1).bind Token.word? =
          rest.head?.bind (·.token.word?) := by
        rw [hword]
        cases rest <;> rfl
      simp only [h₀.isNamedIndex?, h₀.constraint?, Option.bind_eq_bind, Option.bind_some, hname]
      refine ite_eq_some (f := id) rfl ?_
      rw [Fragment.readNamed]
      have hother : (if first.token.isOneOf Fragment.constraintKeywords then
            some ⟨.ok (Fragment.ofConstraint (first :: rest)), []⟩
          else some ⟨.error (.unrecognizedType name
            ((rest.head?.bind (·.token.word?)).getD [])), []⟩ : Option Fragment.Reading) =
          some (if first.token.isOneOf Fragment.constraintKeywords then
            ⟨.ok (Fragment.ofConstraint (first :: rest)), []⟩
          else ⟨.error (.unrecognizedType name
            ((rest.head?.bind (·.token.word?)).getD [])), []⟩) :=
        ite_eq_some (f := id) rfl rfl
      obtain ⟨r, htype, hagree⟩ := h₀.tail.typeName?
      rw [htype]
      generalize Fragment.typeName? rest = type at hagree
      cases hagree with
      | none => exact hother
      | some typeName hrest =>
        simp only [Option.bind_some, Option.filter_some]
        cases ColumnType.isRecognized typeName with
        | true =>
          simp only [if_true, hrest.column?, Option.bind_some]
          rfl
        | false => exact hother

end Placed

end TableDialects.Position
