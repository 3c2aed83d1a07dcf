import TableDialects.Json.Basic
import TableDialects.Report

/-!
# Tables, columns and types as JSON

Writing gives every member of a record, except that an empty composite key is left out. Reading
fills in what may be missing.
-/
namespace TableDialects

open Json

namespace IntegerSize

def names : List (String × IntegerSize) :=
  [("Tiny", .tiny), ("Small", .small), ("Medium", .medium), ("Int", .int), ("Big", .big)]

def toJson : IntegerSize → Json
  | .tiny => .text "Tiny"
  | .small => .text "Small"
  | .medium => .text "Medium"
  | .int => .text "Int"
  | .big => .text "Big"

end IntegerSize

namespace SizeClass

def names : List (String × SizeClass) :=
  [("Tiny", .tiny), ("Regular", .regular), ("Medium", .medium), ("Long", .long)]

def toJson : SizeClass → Json
  | .tiny => .text "Tiny"
  | .regular => .text "Regular"
  | .medium => .text "Medium"
  | .long => .text "Long"

end SizeClass

namespace ColumnType

def number (n : Option UInt32) : Json := ofNullable (fun n => .number n.toNat) n

def texts (ts : List Text) : Json := .array (ts.map .text)

/-- A choice with the members that belong to it. -/
def record (name : String) (members : List (String × Json)) : Json :=
  .object [(name.toList, .object (members.map fun m => (m.1.toList, m.2)))]

def toJson : ColumnType → Json
  | .integer size width => record "Integer" [("size", size.toJson), ("width", number width)]
  | .boolean => .text "Boolean"
  | .bit length => record "Bit" [("length", number length)]
  | .decimal precision scale =>
    record "Decimal" [("precision", number precision), ("scale", number scale)]
  | .float => .text "Float"
  | .double => .text "Double"
  | .money => .text "Money"
  | .char length => record "Char" [("length", number length)]
  | .varchar length => record "Varchar" [("length", number length)]
  | .text size => record "Text" [("size", size.toJson)]
  | .date => .text "Date"
  | .time withZone => record "Time" [("with_zone", .bool withZone)]
  | .dateTime => .text "DateTime"
  | .timestamp withZone => record "Timestamp" [("with_zone", .bool withZone)]
  | .year => .text "Year"
  | .json inBinary => record "Json" [("binary", .bool inBinary)]
  | .uuid => .text "Uuid"
  | .blob size => record "Blob" [("size", size.toJson)]
  | .binary length varying =>
    record "Binary" [("length", number length), ("varying", .bool varying)]
  | .enumeration values => record "Enum" [("values", texts values)]
  | .set values => record "Set" [("values", texts values)]

def plainTypes : List (String × ColumnType) :=
  [("Boolean", .boolean), ("Float", .float), ("Double", .double), ("Money", .money),
    ("Date", .date), ("DateTime", .dateTime), ("Year", .year), ("Uuid", .uuid)]

/-- The member of an object. -/
def get? {α : Type} (fields : List (Text × Json)) (name : String) (read : Json → Option α) :
    Option α :=
  (fields.find? (·.1 == name.toList)).bind fun f => read f.2

/-- A number that may be null or missing. -/
def number? (fields : List (Text × Json)) (name : String) : Option (Option UInt32) :=
  match fields.find? (·.1 == name.toList) with
  | some f => nullable? unsigned? f.2
  | none => some none

/-- The choices to which members belong, and how these are read. -/
def recordTypes : List (String × (List (Text × Json) → Option ColumnType)) :=
  [("Integer", fun fs => do
      return .integer (← get? fs "size" (plainChoice? IntegerSize.names)) (← number? fs "width")),
    ("Bit", fun fs => (number? fs "length").map .bit),
    ("Decimal", fun fs => do
      return .decimal (← number? fs "precision") (← number? fs "scale")),
    ("Char", fun fs => (number? fs "length").map .char),
    ("Varchar", fun fs => (number? fs "length").map .varchar),
    ("Text", fun fs => (get? fs "size" (plainChoice? SizeClass.names)).map .text),
    ("Time", fun fs => (get? fs "with_zone" bool?).map .time),
    ("Timestamp", fun fs => (get? fs "with_zone" bool?).map .timestamp),
    ("Json", fun fs => (get? fs "binary" bool?).map .json),
    ("Blob", fun fs => (get? fs "size" (plainChoice? SizeClass.names)).map .blob),
    ("Binary", fun fs => do
      return .binary (← number? fs "length") (← get? fs "varying" bool?)),
    ("Enum", fun fs => (get? fs "values" (list? text?)).map .enumeration),
    ("Set", fun fs => (get? fs "values" (list? text?)).map .set)]

def ofJson? (j : Json) : Option ColumnType :=
  (plainChoice? plainTypes j).or do
    let (name, body) ← j.choice?
    match body with
    | some (.object fields) => (← recordTypes.find? (·.1.toList == name)).2 fields
    | _ => none

end ColumnType

namespace Column

def memberNames : List String :=
  ["name", "type", "length", "key", "nullable", "default", "auto_increment", "enum_values",
    "comment", "unsigned"]

def toJson (c : Column) : Json :=
  .object [("name".toList, .text c.name),
    ("type".toList, .text c.typeName),
    ("length".toList, .text c.length),
    ("key".toList, .bool c.key),
    ("nullable".toList, .bool c.nullable),
    ("default".toList, ofNullable .text c.defaultValue),
    ("auto_increment".toList, .bool c.autoIncrement),
    ("enum_values".toList, ofNullable ColumnType.texts c.values),
    ("comment".toList, ofNullable .text c.comment),
    ("unsigned".toList, .bool c.unsigned)]

def ofJson? (j : Json) : Option Column := do
  let ms ← j.members? memberNames
  return {
    name := ← member? ms 0 text?
    typeName := ← member? ms 1 text?
    length := ← memberOr? ms 2 text? []
    key := ← memberOr? ms 3 bool? false
    nullable := ← memberOr? ms 4 bool? true
    defaultValue := ← memberOr? ms 5 (nullable? text?) none
    autoIncrement := ← memberOr? ms 6 bool? false
    values := ← memberOr? ms 7 (nullable? (list? text?)) none
    comment := ← memberOr? ms 8 (nullable? text?) none
    unsigned := ← memberOr? ms 9 bool? false }

end Column

namespace Table

def memberNames : List String := ["name", "columns", "primary_key", "composite_key"]

def toJson (t : Table) : Json :=
  .object ([("name".toList, .text t.name),
    ("columns".toList, .array (t.columns.map Column.toJson)),
    ("primary_key".toList, ofNullable .text t.primaryKey)] ++
    if t.compositeKey.isEmpty then []
    else [("composite_key".toList, ColumnType.texts t.compositeKey)])

def ofJson? (j : Json) : Option Table := do
  let ms ← j.members? memberNames
  return {
    name := ← member? ms 0 text?
    columns := ← member? ms 1 (list? Column.ofJson?)
    primaryKey := ← memberOr? ms 2 (nullable? text?) none
    compositeKey := ← memberOr? ms 3 (list? text?) [] }

end Table

def Diagnostic.toJson (d : Diagnostic) : Json :=
  .object [("statement".toList, .number d.statement), ("error".toList, .text d.problem.message)]

def Report.toJson (r : Report) : Json :=
  .object [("tables".toList, .array (r.tables.map Table.toJson)),
    ("diagnostics".toList, .array (r.diagnostics.map Diagnostic.toJson))]

end TableDialects
