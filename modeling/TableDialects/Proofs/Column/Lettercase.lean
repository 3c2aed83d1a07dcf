import TableDialects.Column.Draft
import TableDialects.Proofs.ColumnType.Lettercase
import TableDialects.Proofs.DefaultValue.Lettercase

/-!
# Columns in capitals

The clauses of a column in capitals say the same, in capitals, and so does the column that is made
of them. Only the words for a time zone are written in small letters whatever the source has.
-/
namespace TableDialects

open Lexeme DefaultValue

namespace Clause

/-- The clause with its text in capitals. -/
def upperAscii : Clause → Clause
  | defaultValue raw => defaultValue (Text.upperAscii raw)
  | comment text => comment (Text.upperAscii text)
  | onUpdate raw => onUpdate (Text.upperAscii raw)
  | c => c

private theorem upperAscii_upperAscii (c : Clause) : c.upperAscii.upperAscii = c.upperAscii := by
  cases c <;> simp [upperAscii, Text.upperAscii_upperAscii]

private theorem ofUpdate_upperAscii (raw : Text) :
    ofUpdate (Text.upperAscii raw) = (ofUpdate raw).upperAscii := by
  rw [ofUpdate, Text.oneOf_upperAscii, ofUpdate, apply_ite upperAscii]
  rfl

private theorem ofGenerated_upperAscii (rest : List Lexeme) :
    ofGenerated (rest.map Lexeme.upperAscii) = ofGenerated rest := by
  have hbefore := takeWhile_upperAscii (p := fun l => !l.token.isWord "AS") (by simp) rest
  simp only [ofGenerated, hbefore, List.length_map, ← List.map_drop, nextIs_upperAscii,
    leadingGroup_upperAscii]

private theorem read_upperAscii (first : Lexeme) (rest : List Lexeme) :
    read first.upperAscii (rest.map Lexeme.upperAscii) =
      ((read first rest).1.upperAscii, (read first rest).2) := by
  let capitals : Clause × Nat → Clause × Nat := fun p => (p.1.upperAscii, p.2)
  have hgroup := groupLength_upperAscii (first :: rest)
  rw [List.map_cons] at hgroup
  change _ = capitals (read first rest)
  simp only [read, token_upperAscii, Token.isWord_upperAscii, Token.isOneOf_upperAscii,
    nextIs_upperAscii, leadingGroup_upperAscii, ofGenerated_upperAscii, expressionLength?_upperAscii,
    ← List.map_drop, ← List.map_take, sourceFromToken_upperAscii, Token.upperAscii_eq_openParen,
    ofUpdate_upperAscii, apply_ite capitals, hgroup]
  -- the tests agree, and most clauses have no text
  repeat' refine ite_congr rfl (fun _ => ?_) fun _ => ?_
  any_goals rfl
  · unfold ofGenerated
    dsimp only
    split <;> rfl
  · cases expressionLength? rest <;> rfl
  · cases rest with
    | nil => rfl
    | cons l ls =>
      obtain ⟨g, u, k⟩ := l
      cases k <;> rfl
  · cases expressionLength? (rest.drop 1) <;> rfl

private theorem readAll_upperAscii (ls : List Lexeme) :
    readAll (ls.map Lexeme.upperAscii) = (readAll ls).map upperAscii := by
  fun_induction readAll ls with
  | case1 => rw [List.map_nil, readAll, List.map_nil]
  | case2 first rest ih =>
    rw [List.map_drop] at ih
    rw [List.map_cons, readAll, read_upperAscii, ih, List.map_cons]

end Clause

/-- The problem with its texts in capitals. -/
def Problem.upperAscii : Problem → Problem
  | noTable => noTable
  | emptyTable table => emptyTable (Text.upperAscii table)
  | unrecognizedType column typeName =>
    unrecognizedType (Text.upperAscii column) (Text.upperAscii typeName)
  | malformedDefault column => malformedDefault (Text.upperAscii column)
  | malformedEnumeration column => malformedEnumeration (Text.upperAscii column)
  | unknownDialect name => unknownDialect (Text.upperAscii name)
  | settings detail => settings (Text.upperAscii detail)
  | inputOutput detail => inputOutput (Text.upperAscii detail)

/-- The column with its texts in capitals. -/
def Column.upperAscii (c : Column) : Column :=
  { c with
    name := Text.upperAscii c.name
    typeName := Text.upperAscii c.typeName
    length := Text.upperAscii c.length
    defaultValue := c.defaultValue.map Text.upperAscii
    values := c.values.map (List.map Text.upperAscii)
    comment := c.comment.map Text.upperAscii }

theorem Problem.upperAscii_upperAscii (e : Problem) : e.upperAscii.upperAscii = e.upperAscii := by
  cases e <;> simp [upperAscii, Text.upperAscii_upperAscii]

theorem Column.upperAscii_upperAscii (c : Column) : c.upperAscii.upperAscii = c.upperAscii := by
  simp [upperAscii, Text.upperAscii_upperAscii, Function.comp_def]

namespace Draft

/-- The draft with its texts in capitals. -/
def upperAscii (d : Draft) : Draft :=
  { d with
    column := d.column.upperAscii
    onUpdate := d.onUpdate.map Text.upperAscii
    problems := d.problems.map Problem.upperAscii }

private theorem setDefault_upperAscii (c : Column) (raw : Text) :
    setDefault c.upperAscii (Text.upperAscii raw) = (setDefault c raw).upperAscii := by
  rw [setDefault, Text.lower_upperAscii, normalize_upperAscii, setDefault]
  split
  · rfl
  · simp only [Column.upperAscii, Option.map_or]

private theorem add_upperAscii (d : Draft) (c : Clause) :
    d.upperAscii.add c.upperAscii = (d.add c).upperAscii := by
  cases c with
  | defaultValue raw =>
    have hdefault := setDefault_upperAscii d.column raw
    simp only [add, upperAscii, Clause.upperAscii, hdefault]
  | missingDefault => simp [add, upperAscii, Clause.upperAscii, Column.upperAscii, Problem.upperAscii]
  | comment text => simp [add, upperAscii, Clause.upperAscii, Column.upperAscii]
  | onUpdate raw => simp [add, upperAscii, Clause.upperAscii]
  | _ => rfl

private theorem foldl_upperAscii (cs : List Clause) (d : Draft) :
    (cs.map Clause.upperAscii).foldl add d.upperAscii = (cs.foldl add d).upperAscii := by
  induction cs generalizing d with
  | nil => rfl
  | cons c cs ih => rw [List.map_cons, List.foldl_cons, add_upperAscii, ih, List.foldl_cons]

private theorem withUpdate_upperAscii (c : Column) (event : Text) :
    withUpdate c.upperAscii (Text.upperAscii event) = (withUpdate c event).upperAscii := by
  cases hv : c.defaultValue with
  | none =>
    have hnone : c.upperAscii.defaultValue = none := by rw [Column.upperAscii, hv]; rfl
    rw [withUpdate, hnone, withUpdate, hv]
  | some value =>
    have hsome : c.upperAscii.defaultValue = some (Text.upperAscii value) := by
      rw [Column.upperAscii, hv]
      rfl
    have happend : Text.upperAscii value ++ " ON UPDATE ".toList ++ Text.upperAscii event =
        Text.upperAscii (value ++ " ON UPDATE ".toList ++ event) := by
      rw [Text.upperAscii_append, Text.upperAscii_append]
      rfl
    simp only [withUpdate, hsome, hv, Text.upper_upperAscii, happend, normalize_upperAscii,
      apply_ite Column.upperAscii]
    rfl

private theorem finish_upperAscii (d : Draft) : d.upperAscii.finish = d.finish.upperAscii := by
  obtain ⟨column, inlinePrimary, onUpdate, problems⟩ := d
  cases onUpdate with
  | none => rfl
  | some event =>
    have hupdate := withUpdate_upperAscii column event
    simp only [finish, upperAscii, Option.map_some, hupdate]

end Draft

private theorem stringLiterals_upperAscii (t : Text) :
    stringLiterals (Text.upperAscii t) = (stringLiterals t).map Text.upperAscii := by
  rw [stringLiterals, tokenize_upperAscii, List.filterMap_map, stringLiterals, List.map_filterMap]
  congr 1
  funext l
  obtain ⟨g, u, k⟩ := l
  cases k <;> rfl

namespace Column

private theorem draft_upperAscii (name typeName length : Text) :
    draft (Text.upperAscii name) (Text.upperAscii typeName) (Text.upperAscii length) =
      (draft name typeName length).upperAscii := by
  simp only [draft, ColumnType.isSerial_upperAscii, ColumnType.isEnumeration_upperAscii,
    stringLiterals_upperAscii, List.isEmpty_map, apply_ite Draft.upperAscii]
  refine ite_congr rfl (fun _ => ?_) fun _ => rfl
  cases (stringLiterals length).isEmpty <;> rfl

private theorem zone?_upperAscii (ls : List Lexeme) :
    zone? (ls.map Lexeme.upperAscii) = zone? ls := by
  match ls with
  | [] => rfl
  | [_] => rfl
  | [_, _] => rfl
  | first :: time :: zone :: rest =>
    simp only [List.map_cons, zone?, token_upperAscii, Token.isWord_upperAscii]

private theorem zoneAfter?_upperAscii (typeName : Text) (ls : List Lexeme) :
    zoneAfter? (Text.upperAscii typeName) (ls.map Lexeme.upperAscii) = zoneAfter? typeName ls := by
  rw [zoneAfter?, Text.lower_upperAscii, zone?_upperAscii, zoneAfter?]

theorem read_upperAscii (name typeName : Text) (ls : List Lexeme) :
    (read (Text.upperAscii name) (Text.upperAscii typeName) (ls.map Lexeme.upperAscii)).upperAscii =
      (read name typeName ls).upperAscii := by
  have hlength : (if leadingGroup ls = 0 then []
      else Text.trim (groupText (ls.map Lexeme.upperAscii))) =
        Text.upperAscii (if leadingGroup ls = 0 then [] else Text.trim (groupText ls)) := by
    split
    · rfl
    · rw [groupText_upperAscii, Text.trim_upperAscii]
  have hclauses : ∀ (b : Bool) (rest : List Lexeme),
      Clause.readAll (if b then (rest.map Lexeme.upperAscii).drop 3
        else rest.map Lexeme.upperAscii) =
          (Clause.readAll (if b then rest.drop 3 else rest)).map Clause.upperAscii := by
    intro b rest
    rw [← Clause.readAll_upperAscii]
    cases b <;> simp
  have htwice : ∀ cs : List Clause, (cs.map Clause.upperAscii).map Clause.upperAscii =
      cs.map Clause.upperAscii := by
    intro cs
    simp [Clause.upperAscii_upperAscii]
  simp only [read, leadingGroup_upperAscii, ← List.map_drop, zoneAfter?_upperAscii]
  rw [hlength, List.map_drop, hclauses]
  simp only [← Draft.finish_upperAscii, ← Draft.foldl_upperAscii, ← draft_upperAscii, htwice,
    Text.upperAscii_append, Text.upperAscii_upperAscii]

theorem type?_upperAscii (c : Column) : c.upperAscii.type? = c.type?.map ColumnType.upperAscii := by
  rw [type?, type?, ← ColumnType.ofSource?_upperAscii, upperAscii]
  cases c.values <;> rfl

end Column

end TableDialects
