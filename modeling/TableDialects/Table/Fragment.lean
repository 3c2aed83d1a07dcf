import TableDialects.Column.Draft

/-!
# Fragments of a table body

A fragment is what stands between two commas of a table body: a column, a key or an index.
-/
namespace TableDialects

inductive Fragment where
  | column (column : Column) (inlinePrimary : Bool)
  | primaryKey (names : List Text)
  | uniqueKey (names : List Text)
  /-- A constraint or index that does not bear on the table. -/
  | ignored
  deriving DecidableEq, Repr, Inhabited

namespace Fragment

open Lexeme

def constraintKeywords : List String :=
  ["CONSTRAINT", "PRIMARY", "UNIQUE", "KEY", "INDEX", "FOREIGN", "CHECK", "FULLTEXT", "SPATIAL",
    "EXCLUDE", "LIKE"]

/-- An index with a name, or a constraint with a name, although the name may be that of a type.
The parentheses after a type never begin with a name, and a name between backticks is no
keyword. -/
def isNamedIndex (ls : List Lexeme) : Bool :=
  match ls with
  | [] => false
  | first :: rest =>
    let at? (i : Nat) : Option Token := rest[i]?.map (·.token)
    first.text.head? != some '\x60' &&
    if first.token.isWord "CONSTRAINT" then (at? 1).any (·.isOneOf constraintKeywords)
    else
      first.token.isOneOf ["KEY", "INDEX", "FULLTEXT", "SPATIAL"] &&
        (at? 0).any (·.name?.isSome) && at? 1 == some .openParen && (at? 2).any (·.word?.isSome)

/-- The type name at the start and what follows it. Two names consist of two words. -/
def typeName? (ls : List Lexeme) : Option (Text × List Lexeme) :=
  match ls with
  | ⟨_, _, .word first⟩ :: ⟨_, _, .word second⟩ :: rest =>
    if (Text.same first "double" && Text.same second "precision") ||
        (Text.same first "character" && Text.same second "varying") then
      some (first ++ ' ' :: second, rest)
    else some (first, ls.drop 1)
  | ⟨_, _, .word first⟩ :: rest => some (first, rest)
  | _ => none

/-- The type name in terms of the next word. -/
theorem typeName?_cons (l : Lexeme) (ls : List Lexeme) :
    typeName? (l :: ls) = l.token.word?.map fun first =>
      if (Text.same first "double" && nextIs "precision" ls) ||
          (Text.same first "character" && nextIs "varying" ls) then
        (first ++ ' ' :: (ls.head?.bind (·.token.word?)).getD [], ls.drop 1)
      else (first, ls) := by
  obtain ⟨g, u, k⟩ := l
  cases k with
  | word first =>
    cases ls with
    | nil =>
      simp only [nextIs, Bool.and_false, Bool.or_false, Bool.false_eq_true, if_false]
      rfl
    | cons m t =>
      obtain ⟨g', u', k'⟩ := m
      cases k' with
      | word second =>
        rw [typeName?]
        exact (apply_ite some _ _ _).symm
      | _ =>
        simp only [nextIs, Token.isWord, Bool.and_false, Bool.or_false, Bool.false_eq_true, if_false]
        rfl
  | _ => cases ls <;> rfl

/-- The names that lead the entries of a list, `depth` parentheses being open. What follows a
name in its entry is left out. -/
def entryNames (depth : Nat) (expecting : Bool) : List Token → List Text
  | [] => []
  | .openParen :: ts => entryNames (depth + 1) expecting ts
  | .closeParen :: ts => entryNames (depth - 1) expecting ts
  | t :: ts =>
    if depth ≠ 0 then entryNames depth expecting ts
    else if t = .comma then entryNames depth true ts
    else if expecting then t.name?.toList ++ entryNames depth false ts
    else entryNames depth expecting ts

/-- The column names in the first group. -/
def columnNames (ls : List Lexeme) : List Text :=
  entryNames 0 true ((groupInner (ls.dropWhile (·.token != .openParen))).map (·.token))

/-- What follows the first `keyword KEY`. -/
def afterKey? (keyword : String) : List Lexeme → Option (List Lexeme)
  | [] => none
  | l :: ls =>
    if l.token.isWord keyword && nextIs "KEY" ls then some (ls.drop 1) else afterKey? keyword ls

def ofConstraint (ls : List Lexeme) : Fragment :=
  match afterKey? "PRIMARY" ls with
  | some rest => .primaryKey (columnNames rest)
  | none =>
    match afterKey? "UNIQUE" ls with
    | some rest => .uniqueKey (columnNames rest)
    | none => .ignored

/-- A fragment, or the problem that excludes it, with the lesser problems found on the way. -/
structure Reading where
  result : Except Problem Fragment
  problems : List Problem := []

/-- A column whose name is `name`, or a constraint, from lexemes that begin with a name. -/
def readNamed (first : Lexeme) (name : Text) (rest : List Lexeme) : Reading :=
  match (typeName? rest).filter (ColumnType.isRecognized ·.1) with
  | some (typeName, following) =>
    let d := Column.read name typeName following
    { result := .ok (.column d.column d.inlinePrimary), problems := d.problems }
  | none =>
    if first.token.isOneOf constraintKeywords then { result := .ok (ofConstraint (first :: rest)) }
    else
      let typeName := (rest.head?.bind (·.token.word?)).getD []
      { result := .error (.unrecognizedType name typeName) }

/-- The fragment of a table body that consists of the given lexemes. -/
def read (ls : List Lexeme) : Reading :=
  match ls with
  | [] => { result := .ok .ignored }
  | first :: rest =>
    match first.token.name? with
    | none => { result := .ok .ignored }
    | some name =>
      if isNamedIndex ls then { result := .ok (ofConstraint ls) } else readNamed first name rest

end Fragment

end TableDialects
