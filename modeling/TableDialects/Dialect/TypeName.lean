import TableDialects.ColumnType.Basic
import TableDialects.DefaultValue.Normal
import TableDialects.Dialect.Basic

/-!
# Type names of the dialects
-/
namespace TableDialects.Dialect

/-- A type name with its length in parentheses, if there is one. -/
def sized (base : Text) : Option Nat → Text
  | some n => base ++ '(' :: (Text.ofNat n ++ [')'])
  | none => base

def sizedBy (base : Text) (length : Option UInt32) : Text := sized base (length.map (·.toNat))

/-- A decimal type. A scale without a precision is left out. -/
def decimal (base : Text) : Option UInt32 → Option UInt32 → Text
  | some p, some s => base ++ '(' :: (Text.ofNat p.toNat ++ ',' :: (Text.ofNat s.toNat ++ [')']))
  | precision, _ => sizedBy base precision

def sizeClass (base : Text) : SizeClass → Text
  | .tiny => "TINY".toList ++ base
  | .regular => base
  | .medium => "MEDIUM".toList ++ base
  | .long => "LONG".toList ++ base

def literals (values : List Text) : Text := Text.join "," (values.map quoteLiteral)

def sqliteType : ColumnType → Text
  | .integer _ _ | .boolean | .bit _ | .year => "INTEGER"
  | .decimal _ _ | .money => "NUMERIC"
  | .float | .double => "REAL"
  | .char length => sizedBy "NCHAR" length
  | .varchar length => sizedBy "NVARCHAR" length
  | .text _ | .date | .time _ | .dateTime | .timestamp _ | .json _ | .uuid => "TEXT"
  | .blob _ | .binary _ _ => "BLOB"
  | .enumeration values | .set values =>
    sized "NVARCHAR" (some (ColumnType.enumerationWidth values))

def mysqlInteger : IntegerSize → Text
  | .tiny => "TINYINT"
  | .small => "SMALLINT"
  | .medium => "MEDIUMINT"
  | .int => "INT"
  | .big => "BIGINT"

/-- Types that cannot do without a length get 255. -/
def mysqlType : ColumnType → Text
  | .integer size width => sizedBy (mysqlInteger size) width
  | .boolean => "TINYINT(1)"
  | .bit length => sizedBy "BIT" length
  | .decimal precision scale => decimal "DECIMAL" precision scale
  | .money => "DECIMAL(19,4)"
  | .float => "FLOAT"
  | .double => "DOUBLE"
  | .char length => sizedBy "CHAR" length
  | .varchar length => sizedBy "VARCHAR" (some (length.getD 255))
  | .text size => sizeClass "TEXT" size
  | .date => "DATE"
  | .time _ => "TIME"
  | .dateTime => "DATETIME"
  | .timestamp _ => "TIMESTAMP"
  | .year => "YEAR"
  | .json _ => "JSON"
  | .uuid => "CHAR(36)"
  | .blob size => sizeClass "BLOB" size
  | .binary length false => sizedBy "BINARY" length
  | .binary length true => sizedBy "VARBINARY" (some (length.getD 255))
  | .enumeration values => "enum(".toList ++ literals values ++ [')']
  | .set values => "set(".toList ++ literals values ++ [')']

def postgresInteger : IntegerSize → Text
  | .tiny | .small => "SMALLINT"
  | .medium | .int => "INTEGER"
  | .big => "BIGINT"

def postgresType : ColumnType → Text
  | .integer size _ => postgresInteger size
  | .boolean => "BOOLEAN"
  | .bit length => sizedBy "BIT" length
  | .decimal precision scale => decimal "NUMERIC" precision scale
  | .float => "REAL"
  | .double => "DOUBLE PRECISION"
  | .money => "MONEY"
  | .char length => sizedBy "CHARACTER" length
  | .varchar length => sizedBy "CHARACTER VARYING" length
  | .text _ => "TEXT"
  | .date => "DATE"
  | .time true => "TIME WITH TIME ZONE"
  | .time false => "TIME WITHOUT TIME ZONE"
  | .timestamp true => "TIMESTAMP WITH TIME ZONE"
  | .dateTime | .timestamp false => "TIMESTAMP WITHOUT TIME ZONE"
  | .year => "SMALLINT"
  | .json true => "JSONB"
  | .json false => "JSON"
  | .uuid => "UUID"
  | .blob _ | .binary _ _ => "BYTEA"
  | .enumeration values | .set values =>
    sized "CHARACTER VARYING" (some (ColumnType.enumerationWidth values))

/-- The name that a dialect has for a column type. -/
def typeName (d : Dialect) (type : ColumnType) : Text :=
  match d.family with
  | .sqlite => sqliteType type
  | .mysql => mysqlType type
  | .postgres => postgresType type

end TableDialects.Dialect
