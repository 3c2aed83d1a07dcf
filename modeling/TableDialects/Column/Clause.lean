import TableDialects.Column.Value

/-!
# Clauses of a column
-/
namespace TableDialects

/-- What a clause after the type of a column says. -/
inductive Clause where
  | notNull
  | primaryKey
  | autoIncrement
  | defaultValue (raw : Text)
  | missingDefault
  | comment (text : Text)
  | unsigned
  | onUpdate (raw : Text)
  /-- A clause that does not bear on the column. -/
  | other
  deriving DecidableEq, Repr, Inhabited

namespace Clause

open Lexeme DefaultValue

/-- An `ON UPDATE` clause. A referential action belongs to the reference before it. -/
def ofUpdate (raw : Text) : Clause :=
  if Text.oneOf ["CASCADE", "RESTRICT", "SET", "NO"] raw then .other else .onUpdate raw

/-- A generated column, which is computed unless it is an identity. The count leaves out the
keyword `GENERATED`. -/
def ofGenerated (rest : List Lexeme) : Clause × Nat :=
  let before := (rest.takeWhile fun l => !l.token.isWord "AS").length
  if nextIs "IDENTITY" (rest.drop (before + 1)) then
    (.autoIncrement, before + 2 + leadingGroup (rest.drop (before + 2)))
  else (.other, before + 1 + leadingGroup (rest.drop (before + 1)))

/-- The clause that begins with `first`, and how many lexemes of the rest belong to it. -/
def read (first : Lexeme) (rest : List Lexeme) : Clause × Nat :=
  let t := first.token
  if t.isWord "NOT" && nextIs "NULL" rest then (.notNull, 1)
  else if t.isWord "PRIMARY" && nextIs "KEY" rest then (.primaryKey, 1)
  else if t.isWord "KEY" then (.primaryKey, 0)
  else if t.isWord "UNIQUE" then (.other, if nextIs "KEY" rest then 1 else 0)
  else if t.isOneOf ["AUTO_INCREMENT", "AUTOINCREMENT", "IDENTITY"] then
    (.autoIncrement, leadingGroup rest)
  else if t.isWord "GENERATED" then ofGenerated rest
  else if t.isWord "DEFAULT" then
    match expressionLength? rest with
    | some n => (.defaultValue (sourceFromToken (rest.take n)), n)
    | none => (.missingDefault, 0)
  else if t.isWord "COMMENT" then
    match rest with
    | ⟨_, _, .quoted _ text⟩ :: _ => (.comment text, 1)
    | _ => (.other, 0)
  else if t.isWord "UNSIGNED" then (.unsigned, 0)
  else if t.isOneOf ["COLLATE", "CHARSET"] then (.other, 1)
  else if t.isWord "CHARACTER" && nextIs "SET" rest then (.other, 2)
  else if t.isWord "ON" && nextIs "UPDATE" rest then
    match expressionLength? (rest.drop 1) with
    | some n => (ofUpdate (sourceFromToken ((rest.drop 1).take n)), 1 + n)
    | none => (.other, 1)
  else if t.isWord "ON" && (nextIs "DELETE" rest || nextIs "INSERT" rest) then
    (.other, 1 + (expressionLength? (rest.drop 1)).getD 0)
  else if t.isWord "CONSTRAINT" then (.other, 1)
  else if t = .openParen then (.other, groupLength (first :: rest) - 1)
  else (.other, 0)

/-- The clauses of a column, in order. -/
def readAll : List Lexeme → List Clause
  | [] => []
  | first :: rest => (read first rest).1 :: readAll (rest.drop (read first rest).2)
termination_by ls => ls.length
decreasing_by simp only [List.length_drop, List.length_cons]; omega

end Clause

end TableDialects
