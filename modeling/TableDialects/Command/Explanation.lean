import TableDialects.Dialect.Basic
import TableDialects.Json.Model
import TableDialects.Json.Pretty

/-!
# Explanations

What a script defines, for a reader: each table with its keys and columns, then the problems.
-/
namespace TableDialects.Command

def padded (width : Nat) (t : Text) : Text := t ++ List.replicate (width - t.length) ' '

def line (parts : List Text) : Text := parts.flatten ++ ['\n']

def flags (c : Column) : Text :=
  Text.join ", " <|
    (if c.key then ["key".toList] else []) ++
    (if c.nullable then [] else ["not null".toList]) ++
    (if c.autoIncrement then ["auto".toList] else []) ++
    (if c.unsigned then ["unsigned".toList] else [])

def typeText (c : Column) : Text :=
  if c.length.isEmpty then c.typeName else c.typeName ++ '(' :: (c.length ++ [')'])

def explainColumn (c : Column) : Text :=
  line ["    • ", padded 20 c.name, [' '], padded 24 (typeText c), [' '], flags c] ++
    match c.defaultValue with
    | some value => line ["      default ", value]
    | none => []

def explainTable (t : Table) : Text :=
  line ["Table: ", t.name] ++
    (match t.primaryKey with
      | some key => line ["  Primary key: ", key]
      | none => []) ++
    (if t.compositeKey.isEmpty then []
      else line ["  Composite key: (", Text.join ", " t.compositeKey, [')']]) ++
    t.columns.flatMap explainColumn ++ line []

/-- A problem with the number of its statement, the first being 1. -/
def explainProblem (heading : Text) (d : Diagnostic) : Text :=
  line [heading, " statement ", Text.ofNat (d.statement + 1), ": ", d.problem.message]

def explain (r : Report) : Text :=
  r.tables.flatMap explainTable ++ r.diagnostics.flatMap (explainProblem "Skipped")

def explainAsJson (r : Report) : Text := line [r.toJson.pretty 0]

/-- The names of each dialect. -/
def listDialects : Text :=
  let row (name names : Text) : Text := line [padded 10 name, [' '], names]
  row "Dialect" "Identifiers" ++ line [List.replicate 48 '─'] ++
    Dialect.all.flatMap fun d => row d.name (Text.join ", " (d.aliases.map String.toList))

end TableDialects.Command
