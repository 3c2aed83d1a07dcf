import TableDialects.ColumnType.Basic
import TableDialects.Text.Blank
import TableDialects.Text.Case

/-!
# Names of column types

One vocabulary serves the sources of every dialect. A type name may be followed by a qualifier in
parentheses: a length, a precision and a scale, or the values of an enumeration.
-/
namespace TableDialects

structure Qualifier where
  text : Text
  /-- The quoted literals of the text. -/
  values : List Text

namespace Qualifier

/-- A number below 2³², digits after an optional plus sign. -/
def unsigned? (t : Text) : Option UInt32 :=
  let digits := match t with
    | '+' :: cs => cs
    | cs => cs
  if digits.isEmpty || !digits.all Char.isDigit then none
  else
    let n := digits.foldl (fun n c => 10 * n + (c.toNat - 48)) 0
    if n < UInt32.size then some (UInt32.ofNat n) else none

def positive? (t : Text) : Option UInt32 := (unsigned? t).filter (0 < ·)

def length? (q : Qualifier) : Option UInt32 := positive? q.text

def parts (q : Qualifier) : List Text := (Text.pieces (· == ',') q.text).map Text.trim

def precision? (q : Qualifier) : Option UInt32 := q.parts[0]?.bind positive?

def scale? (q : Qualifier) : Option UInt32 := q.parts[1]?.bind unsigned?

end Qualifier

namespace ColumnType

/-- The type names, in lower case. -/
def vocabulary : List (String × (Qualifier → ColumnType)) :=
  [("serial", fun _ => .integer .int none),
  ("serial4", fun _ => .integer .int none),
  ("bigserial", fun _ => .integer .big none),
  ("serial8", fun _ => .integer .big none),
  ("smallserial", fun _ => .integer .small none),
  ("serial2", fun _ => .integer .small none),
  ("tinyint", fun q => .integer .tiny q.length?),
  ("smallint", fun q => .integer .small q.length?),
  ("int2", fun q => .integer .small q.length?),
  ("mediumint", fun q => .integer .medium q.length?),
  ("int", fun q => .integer .int q.length?),
  ("integer", fun q => .integer .int q.length?),
  ("int4", fun q => .integer .int q.length?),
  ("bigint", fun q => .integer .big q.length?),
  ("int8", fun q => .integer .big q.length?),
  ("boolean", fun _ => .boolean),
  ("bool", fun _ => .boolean),
  ("bit", fun q => .bit q.length?),
  ("decimal", fun q => .decimal q.precision? q.scale?),
  ("numeric", fun q => .decimal q.precision? q.scale?),
  ("dec", fun q => .decimal q.precision? q.scale?),
  ("float", fun _ => .float),
  ("float4", fun _ => .float),
  ("real", fun _ => .float),
  ("double", fun _ => .double),
  ("double precision", fun _ => .double),
  ("float8", fun _ => .double),
  ("money", fun _ => .money),
  ("char", fun q => .char q.length?),
  ("character", fun q => .char q.length?),
  ("nchar", fun q => .char q.length?),
  ("varchar", fun q => .varchar q.length?),
  ("nvarchar", fun q => .varchar q.length?),
  ("varchar2", fun q => .varchar q.length?),
  ("character varying", fun q => .varchar q.length?),
  ("tinytext", fun _ => .text .tiny),
  ("text", fun _ => .text .regular),
  ("mediumtext", fun _ => .text .medium),
  ("longtext", fun _ => .text .long),
  ("date", fun _ => .date),
  ("time", fun _ => .time false),
  ("time without time zone", fun _ => .time false),
  ("timetz", fun _ => .time true),
  ("time with time zone", fun _ => .time true),
  ("datetime", fun _ => .dateTime),
  ("timestamp", fun _ => .timestamp false),
  ("timestamp without time zone", fun _ => .timestamp false),
  ("timestamptz", fun _ => .timestamp true),
  ("timestamp with time zone", fun _ => .timestamp true),
  ("year", fun _ => .year),
  ("json", fun _ => .json false),
  ("jsonb", fun _ => .json true),
  ("uuid", fun _ => .uuid),
  ("tinyblob", fun _ => .blob .tiny),
  ("blob", fun _ => .blob .regular),
  ("bytea", fun _ => .blob .regular),
  ("mediumblob", fun _ => .blob .medium),
  ("longblob", fun _ => .blob .long),
  ("binary", fun q => .binary q.length? false),
  ("varbinary", fun q => .binary q.length? true),
  ("enum", fun q => .enumeration q.values),
  ("set", fun q => .set q.values)]

/-- A type name in lower case, with single spaces between its words. -/
def plainName (name : Text) : Text := Text.lower (Text.collapsed name)

/-- The type that a name and its qualifier stand for, if the name is known. -/
def ofSource? (name length : Text) (values : List Text) : Option ColumnType :=
  (vocabulary.find? fun e => e.1.toList == plainName name).map fun e =>
    e.2 ⟨Text.trim length, values⟩

def isRecognized (name : Text) : Bool := (ofSource? name [] []).isSome

/-- Serial columns count up by themselves. -/
def isSerial (name : Text) : Bool :=
  ["serial", "serial2", "serial4", "serial8", "smallserial", "bigserial"].any
    fun n => n.toList == plainName name

/-- The names whose qualifier is a list of literals. -/
def isEnumeration (name : Text) : Bool := ["enum", "set"].any fun n => n.toList == plainName name

end ColumnType

end TableDialects
