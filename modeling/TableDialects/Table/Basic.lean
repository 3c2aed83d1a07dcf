import TableDialects.ColumnType.Vocabulary

/-!
# Tables and columns
-/
namespace TableDialects

structure Column where
  name : Text
  /-- The type name as written. -/
  typeName : Text
  /-- The text between the parentheses after the type name. -/
  length : Text := []
  /-- Whether the column belongs to a primary or unique key. -/
  key : Bool := false
  nullable : Bool := true
  defaultValue : Option Text := none
  autoIncrement : Bool := false
  /-- The values of an enumeration. -/
  values : Option (List Text) := none
  comment : Option Text := none
  unsigned : Bool := false
  deriving DecidableEq, Repr, Inhabited

structure Table where
  /-- The name as written, which may have a schema in front. -/
  name : Text
  columns : List Column
  primaryKey : Option Text := none
  compositeKey : List Text := []
  deriving DecidableEq, Repr, Inhabited

namespace Column

def type? (c : Column) : Option ColumnType :=
  ColumnType.ofSource? c.typeName c.length (c.values.getD [])

def isNamed (name : Text) (c : Column) : Bool := Text.same c.name name

end Column

namespace Table

/-- The name without its schema: what follows the last point. -/
def baseName (t : Table) : Text := (t.name.reverse.takeWhile (· != '.')).reverse

def find? (t : Table) (name : Text) : Option Column := t.columns.find? (Column.isNamed name)

/-- The first column that `p` picks, changed by `f`. -/
def modifyFirst (p : Column → Bool) (f : Column → Column) : List Column → List Column
  | [] => []
  | c :: cs => if p c then f c :: cs else c :: modifyFirst p f cs

/-- The column of that name, changed by `f`. -/
def modify (t : Table) (name : Text) (f : Column → Column) : Table :=
  { t with columns := modifyFirst (Column.isNamed name) f t.columns }

/-- Whether the column of that name is the primary key by itself. -/
def isPrimary (t : Table) (name : Text) : Bool :=
  match t.primaryKey with
  | some key => Text.same key name
  | none => false

end Table

end TableDialects
