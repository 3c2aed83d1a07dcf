import TableDialects.Proofs.ColumnType.Lettercase
import TableDialects.Proofs.Script.Body
import TableDialects.Proofs.Table.WellFormed

/-!
# Columns of prepared statements

The name and the type of a column are read from its first lexemes. Preparation keeps both, as long
as it rewrites nothing among these lexemes but the type name.
-/
namespace TableDialects

open Lexeme

namespace Column

/-- The name and the type. -/
def shape (c : Column) : Text × Option ColumnType := (c.name, c.type?)

private theorem length_add (d : Draft) (k : Clause) :
    (d.add k).column.length = d.column.length := by
  cases k with
  | defaultValue raw =>
    simp only [Draft.add, Draft.setDefault]
    split <;> rfl
  | _ => rfl

theorem length_foldl (ks : List Clause) (d : Draft) :
    (ks.foldl Draft.add d).column.length = d.column.length := by
  induction ks generalizing d with
  | nil => rfl
  | cons k ks ih => exact (ih (d.add k)).trans (length_add d k)

theorem length_finish (d : Draft) : d.finish.column.length = d.column.length := by
  unfold Draft.finish
  split
  · unfold Draft.withUpdate
    dsimp only
    split
    · split <;> rfl
    · rfl
  · rfl

/-- The text between the parentheses at the start. -/
def qualifier (ls : List Lexeme) : Text :=
  if leadingGroup ls = 0 then [] else Text.trim (groupText ls)

/-- The type that a type name and what follows it stand for. -/
def typeFrom? (typeName : Text) (ls : List Lexeme) : Option ColumnType :=
  let name := typeName ++ (zoneAfter? typeName (ls.drop (leadingGroup ls))).getD []
  ColumnType.ofSource? name (qualifier ls)
    (if ColumnType.isEnumeration name then stringLiterals (qualifier ls) else [])

private theorem shape_read (name typeName : Text) (ls : List Lexeme) :
    (read name typeName ls).column.shape = (name, typeFrom? typeName ls) := by
  have hdraft : ∀ (t u : Text), (draft name t u).column.name = name ∧
      (draft name t u).column.typeName = t ∧ (draft name t u).column.length = u ∧
      (draft name t u).column.values.getD [] =
        if ColumnType.isEnumeration t then stringLiterals u else [] := by
    intro t u
    unfold draft
    split
    · exact ⟨rfl, rfl, rfl, rfl⟩
    · exact ⟨rfl, rfl, rfl, rfl⟩
  have hsettles : ∀ (ks : List Clause) (d : Draft),
      Settles d.column (ks.foldl Draft.add d).finish.column :=
    fun ks d => (settles_foldl ks d).trans (settles_finish _)
  rw [read, ← qualifier]
  obtain ⟨hname, htype, hlength, hvalues⟩ := hdraft
    (typeName ++ (zoneAfter? typeName (ls.drop (leadingGroup ls))).getD []) (qualifier ls)
  rw [shape, type?, (hsettles _ _).name, (hsettles _ _).typeName, (hsettles _ _).values,
    length_finish, length_foldl]
  exact congrArg₂ Prod.mk hname (by rw [htype, hlength, hvalues]; rfl)

end Column

namespace Fragment

/-- The name and the type of the column that the fragment is, if it is one. -/
def shape? : Fragment → Option (Text × Option ColumnType)
  | .column c _ => some c.shape
  | _ => none

/-- The name and the type of the column that was read, if it was one. -/
def Reading.shape? (r : Reading) : Option (Text × Option ColumnType) :=
  r.result.toOption.bind Fragment.shape?

/-- The type that is read after a column name, if it is a known one. -/
def typeAfter? (ls : List Lexeme) : Option (Option ColumnType) :=
  ((typeName? ls).filter (ColumnType.isRecognized ·.1)).map fun p => Column.typeFrom? p.1 p.2

theorem shape?_read (first : Lexeme) (rest : List Lexeme) :
    (read (first :: rest)).shape? = first.token.name?.bind fun name =>
      if isNamedIndex (first :: rest) then none else (typeAfter? rest).map fun t => (name, t) := by
  have hconstraint : ∀ (ls : List Lexeme) ps,
      Reading.shape? { result := .ok (ofConstraint ls), problems := ps } = none := by
    intro ls ps
    change Fragment.shape? (ofConstraint ls) = none
    cases h : ofConstraint ls with
    | column c p => exact absurd h (ofConstraint_ne_column ls c p)
    | _ => rfl
  simp only [read]
  cases first.token.name? with
  | none => rfl
  | some name =>
    rw [Option.bind_some]
    dsimp only
    split
    · exact hconstraint _ _
    · simp only [readNamed, typeAfter?]
      cases (typeName? rest).filter (ColumnType.isRecognized ·.1) with
      | some p => exact congrArg some (Column.shape_read name p.1 p.2)
      | none =>
        dsimp only
        split
        · exact hconstraint _ _
        · rfl

end Fragment

namespace Lexeme

section
variable {l l' : Lexeme} {ls ls' : List Lexeme} {n : Nat}

/-- A gap without backticks stays. -/
def Steady (g g' : Text) : Prop := '\x60' ∉ g → g' = g

/-- Whether a name between backticks stands at the start. -/
def beginsTicked (ls : List Lexeme) : Bool := ls.head?.any fun l => l.text.head? == some '\x60'

/-- Whether the first lexeme or the gap in front of it has backticks. -/
def holdsTick (ls : List Lexeme) : Bool :=
  beginsTicked ls || ls.head?.any fun l => l.gap.contains '\x60'

theorem Kept.text_eq {G : Text → Text → Prop} (h : Kept G l l')
    (hl : beginsTicked (l :: ls) = false) : l'.text = l.text := by
  rcases h.text with htext | ⟨-, -, htick⟩
  · exact htext
  · simp [beginsTicked, htick] at hl

private theorem Kept.eq (h : Kept Steady l l') (hl : holdsTick (l :: ls) = false) : l' = l := by
  simp only [holdsTick, Bool.or_eq_false_iff, List.head?_cons, Option.any_some,
    List.contains_eq_mem, decide_eq_false_iff_not] at hl
  have htext := h.text_eq hl.1
  obtain ⟨hgap, htoken, -⟩ := h
  have hg := hgap hl.2
  cases l
  cases l'
  simp_all

/-- Lexemes without phrases and backticks stay as they are. -/
theorem Rewritten.exists_take (h : Prepared Steady ls ls') (hn : n ≤ ls.length)
    (hphrase : ∀ i < n, beginsPhrase (ls.drop i) = false)
    (htick : ∀ i < n, holdsTick (ls.drop i) = false) :
    ∃ t, ls' = ls.take n ++ t ∧ Prepared Steady (ls.drop n) t := by
  induction n generalizing ls ls' with
  | zero => exact ⟨ls', rfl, h⟩
  | succ n ih =>
    obtain ⟨l, t, rfl⟩ := List.exists_cons_of_length_pos (Nat.lt_of_lt_of_le n.succ_pos hn)
    obtain ⟨l', t', rfl, hl, ht⟩ := h.cons_of_not_phrase (hphrase 0 n.succ_pos)
    obtain rfl := hl.eq (htick 0 n.succ_pos)
    obtain ⟨u, rfl, hu⟩ := ih ht (Nat.le_of_succ_le_succ hn)
      (fun i hi => hphrase (i + 1) (Nat.succ_lt_succ hi))
      (fun i hi => htick (i + 1) (Nat.succ_lt_succ hi))
    exact ⟨u, rfl, hu⟩

private theorem leadingGroup_eq (ls : List Lexeme) :
    leadingGroup ls = if ls.head?.any (·.token == .openParen) then groupLength ls else 0 := by
  cases ls <;> simp [leadingGroup]

private theorem qualifier_congr (h : leadingGroup ls' = leadingGroup ls)
    (ht : ls'.take (leadingGroup ls) = ls.take (leadingGroup ls)) :
    Column.qualifier ls' = Column.qualifier ls := by
  unfold Column.qualifier
  rw [h]
  split
  · rfl
  · next hne =>
    have hlen : ∀ us : List Lexeme, leadingGroup us ≠ 0 → leadingGroup us = groupLength us := by
      intro us hus
      rw [leadingGroup_eq] at hus ⊢
      split
      · rfl
      · next hp => exact absurd (if_neg hp) hus
    have htake : ls'.take (groupLength ls') = ls.take (groupLength ls) := by
      rw [← hlen ls' (h ▸ hne), ← hlen ls hne, h, ht]
    simp only [groupText, groupInner, htake]

/-- A group that is cut out has its length whatever prepared lexemes follow it. -/
theorem groupLength_congr {t : List Lexeme} (ho : ls.head?.any (·.token == .openParen) = true)
    (ht : Prepared Steady (ls.drop (groupLength ls)) t) :
    groupLength (ls.take (groupLength ls) ++ t) = groupLength ls := by
  cases ls with
  | nil => simp at ho
  | cons l us =>
    have hl : l.token = .openParen := by simpa using ho
    cases hs : Token.closing? 1 (us.map (·.token)) with
    | none =>
      rw [groupLength_of_none hl hs] at ht ⊢
      rw [List.drop_eq_nil_of_le (by simp)] at ht
      obtain rfl := ht.eq_nil
      rw [List.append_nil, List.take_of_length_le (by simp), groupLength_of_none hl hs]
    | some k =>
      have hk : k < us.length := by
        have := (List.getElem?_eq_some_iff.1 (Token.getElem?_of_closing? hs)).1
        simpa using this
      rw [groupLength_of_some hl hs, List.take_succ_cons, List.cons_append]
      refine groupLength_of_some hl ?_
      rw [← List.take_append_drop (k + 1) us, List.map_append] at hs
      rw [List.map_append]
      exact Token.closing?_congr hs (by simp; omega)

/-- A group without phrases and backticks stays as it is. -/
theorem Rewritten.qualifier (h : Prepared Steady ls ls') (hp : Placed ls)
    (hphrase : ∀ i < leadingGroup ls, beginsPhrase (ls.drop i) = false)
    (htick : ∀ i < leadingGroup ls, holdsTick (ls.drop i) = false) :
    Column.qualifier ls' = Column.qualifier ls := by
  obtain ⟨t, rfl, ht⟩ := h.exists_take (leadingGroup_le ls) hphrase htick
  have hopen := h.any_head (foreign_beq (k := .openParen) rfl)
    (fun t ht => (eq_false_of_isNeutral ht).1) hp
  have hlen : leadingGroup (ls.take (leadingGroup ls) ++ t) = leadingGroup ls := by
    rw [leadingGroup_eq (_ ++ t), hopen]
    by_cases ho : ls.head?.any (·.token == .openParen) = true
    · rw [if_pos ho]
      rw [leadingGroup_eq, if_pos ho] at ht ⊢
      exact groupLength_congr ho ht
    · rw [if_neg ho, leadingGroup_eq, if_neg ho]
  refine qualifier_congr hlen ?_
  rw [List.take_append_of_le_length (by simp [leadingGroup_le]), List.take_take, Nat.min_self]

private theorem Rewritten.nextIs_neutral (h : Prepared Steady ls ls') (hp : Placed ls) {w : String}
    (hw : w ∈ ["varying", "precision", "with", "without", "time", "zone"]) :
    nextIs w ls' = nextIs w ls := by
  rw [nextIs_eq_any, nextIs_eq_any]
  have hforeign : ∀ v ∈ phraseHeads,
      ∀ u ∈ ["varying", "precision", "with", "without", "time", "zone"],
        Text.same v.toList u.toList = false := by
    decide
  refine h.any_head (foreign_isWord fun v hv => hforeign v hv w hw) (fun t ht => ?_) hp
  by_contra hword
  rw [isNeutral, isOneOf_of_isWord (by simpa using hword) hw] at ht
  simp at ht

theorem zone?_eq (ls : List Lexeme) :
    Column.zone? ls = if nextIs "time" (ls.drop 1) && nextIs "zone" (ls.drop 2) then
      if nextIs "with" ls then some " with time zone".toList
      else if nextIs "without" ls then some " without time zone".toList
      else none
    else none := by
  match ls with
  | [] => rfl
  | [_] => rfl
  | [_, _] => simp [Column.zone?, nextIs]
  | _ :: _ :: _ :: _ => rfl

theorem Rewritten.zone? (h : Prepared Steady ls ls') (hp : Placed ls) :
    Column.zone? ls' = Column.zone? ls := by
  have hsecond : ∀ w ∈ ["with", "without"], nextIs w ls = true →
      (nextIs "time" (ls'.drop 1) && nextIs "zone" (ls'.drop 2)) =
        (nextIs "time" (ls.drop 1) && nextIs "zone" (ls.drop 2)) := by
    intro w hw hnext
    have hforeign : ∀ v ∈ phraseHeads, ∀ w ∈ ["with", "without"],
        Text.same v.toList w.toList = false := by decide
    obtain ⟨l, t, l', t', rfl, rfl, -, -, ht⟩ :=
      h.cons_of_nextIs hnext fun v hv => hforeign v hv w hw
    simp only [List.drop_succ_cons, List.drop_zero]
    rw [ht.nextIs_neutral hp.tail (w := "time") (by decide)]
    cases htime : nextIs "time" t with
    | false => rfl
    | true =>
      obtain ⟨m, u, m', u', rfl, rfl, -, -, hu⟩ := ht.cons_of_nextIs htime (by decide)
      simp only [List.drop_succ_cons, List.drop_zero]
      rw [hu.nextIs_neutral hp.tail.tail (w := "zone") (by decide)]
  rw [zone?_eq, zone?_eq, h.nextIs_neutral hp (w := "with") (by decide),
    h.nextIs_neutral hp (w := "without") (by decide)]
  cases hwith : nextIs "with" ls with
  | true => rw [hsecond "with" (by decide) hwith]
  | false =>
    cases hwithout : nextIs "without" ls with
    | true => rw [hsecond "without" (by decide) hwithout]
    | false => simp

/-- A type name that begins with no phrase is kept. -/
theorem Rewritten.sameTypeName (h : Prepared Steady ls ls') (hp : Placed (l :: ls))
    (hl : Kept Steady l l') :
    SameRead Steady (Fragment.typeName? (l :: ls)) (Fragment.typeName? (l' :: ls')) := by
  rw [Fragment.typeName?_cons, Fragment.typeName?_cons, hl.token,
    h.nextIs_neutral hp.tail (w := "precision") (by decide),
    h.nextIs_neutral hp.tail (w := "varying") (by decide)]
  cases l.token.word? with
  | none => exact .none
  | some first =>
    have hsecond : ∀ w ∈ ["precision", "varying"], nextIs w ls = true →
        SameRead Steady (some (first ++ ' ' :: (ls.head?.bind (·.token.word?)).getD [], ls.drop 1))
          (some (first ++ ' ' :: (ls'.head?.bind (·.token.word?)).getD [], ls'.drop 1)) := by
      intro w hw hnext
      have hforeign : ∀ v ∈ phraseHeads, ∀ w ∈ ["precision", "varying"],
          Text.same v.toList w.toList = false := by decide
      obtain ⟨m, t, m', t', rfl, rfl, -, hm, ht⟩ :=
        h.cons_of_nextIs hnext fun v hv => hforeign v hv w hw
      exact .some ⟨by simp [hm.token], ht, hp.tail.tail⟩
    rw [Option.map_some, Option.map_some]
    split
    · next hc =>
      simp only [Bool.or_eq_true, Bool.and_eq_true] at hc
      rcases hc with hc | hc
      · exact hsecond "precision" (by decide) hc.2
      · exact hsecond "varying" (by decide) hc.2
    · exact .some ⟨rfl, h, hp.tail⟩

end

end Lexeme

end TableDialects
