import TableDialects.DefaultValue.Cast
import TableDialects.Dialect.Attribute
import TableDialects.Dialect.TypeName
import TableDialects.Table.Basic

/-!
# Rendering tables
-/
namespace TableDialects

inductive LineEnding where
  | crlf | lf
  deriving DecidableEq, Repr, Inhabited

def LineEnding.text : LineEnding → Text
  | .crlf => ['\r', '\n']
  | .lf => ['\n']

/-- How definitions are laid out. -/
structure Layout where
  lineEnding : LineEnding := .crlf
  /-- The number of spaces in front of each column. -/
  indent : Nat := 4
  deriving DecidableEq, Repr, Inhabited

/-- The type that a dialect has for a source type name and its qualifier. -/
def Dialect.mapType? (d : Dialect) (name length : Text) : Option Text :=
  (ColumnType.ofSource? name length (stringLiterals length)).map d.typeName

namespace Column

/-- The type of a column. An unknown type keeps its name, in capitals. -/
def renderType (d : Dialect) (c : Column) : Text :=
  match c.type? with
  | some type => d.typeName type
  | none => Text.upper c.typeName

def renderUnsigned (d : Dialect) (c : Column) : Text :=
  if c.unsigned && d.supportsUnsigned && c.type?.any (·.isNumeric) then " UNSIGNED" else []

def renderNull (primary : Bool) (c : Column) : Text :=
  if primary then " NOT NULL PRIMARY KEY"
  else if c.key || !c.nullable then " NOT NULL"
  else " NULL"

/-- A clause with a space in front, or nothing. -/
def clause : Option Text → Text
  | some t => ' ' :: t
  | none => []

/-- The default clause. A default NULL is left out, as it says nothing. -/
def renderDefault (d : Dialect) (c : Column) : Text :=
  match c.defaultValue.map DefaultValue.stripCasts with
  | some value =>
    if Text.same value "NULL" then []
    else clause ((d.defaultValue? value).map fun v => "DEFAULT ".toList ++ v)
  | none => []

/-- One column of a definition. -/
def render (d : Dialect) (primary : Bool) (c : Column) : Text :=
  d.identifier c.name ++ ' ' :: renderType d c ++ renderUnsigned d c ++ renderNull primary c ++
    clause (if c.autoIncrement then d.autoIncrement? else none) ++ renderDefault d c ++
    clause (c.comment.bind d.comment?)

end Column

namespace Table

/-- The lines between the parentheses of a definition. -/
def renderLines (d : Dialect) (t : Table) : List Text :=
  t.columns.map (fun c => c.render d (t.isPrimary c.name)) ++
    if t.compositeKey.isEmpty then []
    else ["PRIMARY KEY (".toList ++ Text.join ", " (t.compositeKey.map d.identifier) ++ [')']]

/-- The definition of one table. -/
def render (d : Dialect) (l : Layout) (t : Table) : Text :=
  let eol := l.lineEnding.text
  let indent := List.replicate l.indent ' '
  "CREATE TABLE ".toList ++ d.identifier t.baseName ++ " (".toList ++ eol ++
    Text.join (',' :: eol) ((t.renderLines d).map (indent ++ ·)) ++ eol ++ ");".toList

/-- The definitions of several tables, a blank line between two of them. -/
def renderAll (d : Dialect) (l : Layout) (ts : List Table) : Text :=
  Text.join (l.lineEnding.text ++ l.lineEnding.text) (ts.map (render d l))

end Table

end TableDialects
