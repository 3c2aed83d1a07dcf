import TableDialects.Column.Clause
import TableDialects.DefaultValue.Normal
import TableDialects.Problem
import TableDialects.Table.Basic

/-!
# Columns from their clauses
-/
namespace TableDialects

/-- A column while its clauses are read. -/
structure Draft where
  column : Column
  inlinePrimary : Bool := false
  onUpdate : Option Text := none
  problems : List Problem := []
  deriving DecidableEq, Repr, Inhabited

namespace Draft

/-- The first default counts. The next value of a sequence is no default but makes the column
count up by itself. -/
def setDefault (c : Column) (raw : Text) : Column :=
  if Text.holds "nextval" (Text.lower raw) then { c with autoIncrement := true }
  else { c with defaultValue := c.defaultValue.or (DefaultValue.normalize raw) }

/-- The draft after one more clause. -/
def add (d : Draft) : Clause → Draft
  | .notNull => { d with column := { d.column with nullable := false } }
  | .primaryKey => { d with inlinePrimary := true }
  | .autoIncrement => { d with column := { d.column with autoIncrement := true } }
  | .defaultValue raw => { d with column := setDefault d.column raw }
  | .missingDefault => { d with problems := d.problems ++ [.malformedDefault d.column.name] }
  | .comment text => { d with column := { d.column with comment := d.column.comment.or (some text) } }
  | .unsigned => { d with column := { d.column with unsigned := true } }
  | .onUpdate raw => { d with onUpdate := d.onUpdate.or (some raw) }
  | .other => d

/-- An update clause that stands alone joins the default. Without a default it is dropped. -/
def withUpdate (c : Column) (event : Text) : Column :=
  match c.defaultValue with
  | some value =>
    if Text.holds " ON UPDATE " (Text.upper value) then c
    else
      { c with defaultValue := DefaultValue.normalize (value ++ " ON UPDATE ".toList ++ event) }
  | none => c

def finish (d : Draft) : Draft :=
  match d.onUpdate with
  | some event => { d with column := withUpdate d.column event }
  | none => d

theorem problems_finish (d : Draft) : d.finish.problems = d.problems := by
  unfold finish
  split <;> rfl

end Draft

namespace Column

open Lexeme

/-- `WITH TIME ZONE` or `WITHOUT TIME ZONE`, as it is added to the type name. -/
def zone? (ls : List Lexeme) : Option Text :=
  match ls with
  | first :: time :: zone :: _ =>
    if time.token.isWord "time" && zone.token.isWord "zone" then
      if first.token.isWord "with" then some " with time zone"
      else if first.token.isWord "without" then some " without time zone"
      else none
    else none
  | _ => none

/-- The zone after a time type, which is part of the type name. -/
def zoneAfter? (typeName : Text) (ls : List Lexeme) : Option Text :=
  if Text.oneOf ["time", "timestamp"] (Text.lower typeName) then zone? ls else none

/-- A column of the given type before its clauses are read. -/
def draft (name typeName length : Text) : Draft :=
  let column : Column := { name, typeName, length, autoIncrement := ColumnType.isSerial typeName }
  if ColumnType.isEnumeration typeName then
    let values := stringLiterals length
    { column := { column with values := some values }
      problems := if values.isEmpty then [.malformedEnumeration name] else [] }
  else { column }

/-- The column whose name and type have been read, from what follows the type. -/
def read (name typeName : Text) (ls : List Lexeme) : Draft :=
  let length := if leadingGroup ls = 0 then [] else Text.trim (groupText ls)
  let rest := ls.drop (leadingGroup ls)
  let zone := zoneAfter? typeName rest
  let clauses := Clause.readAll (if zone.isSome then rest.drop 3 else rest)
  (clauses.foldl Draft.add (draft name (typeName ++ zone.getD []) length)).finish

end Column

end TableDialects
