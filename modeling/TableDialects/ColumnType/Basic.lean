import TableDialects.Text.Basic

/-!
# Column types

A column type says what a column holds, apart from the names that the dialects have for it.
-/
namespace TableDialects

inductive IntegerSize where
  | tiny | small | medium | int | big
  deriving DecidableEq, Repr, Inhabited

inductive SizeClass where
  | tiny | regular | medium | long
  deriving DecidableEq, Repr, Inhabited

inductive ColumnType where
  | integer (size : IntegerSize) (width : Option UInt32)
  | boolean
  | bit (length : Option UInt32)
  | decimal (precision scale : Option UInt32)
  | float
  | double
  | money
  | char (length : Option UInt32)
  | varchar (length : Option UInt32)
  | text (size : SizeClass)
  | date
  | time (withZone : Bool)
  | dateTime
  | timestamp (withZone : Bool)
  | year
  | json (binary : Bool)
  | uuid
  | blob (size : SizeClass)
  | binary (length : Option UInt32) (varying : Bool)
  | enumeration (values : List Text)
  | set (values : List Text)
  deriving DecidableEq, Repr, Inhabited

namespace ColumnType

/-- The width of a text that stores an enumeration: two more than its longest value. The sum is
one of 32 bits. -/
def enumerationWidth (values : List Text) : Nat :=
  (UInt32.ofNat ((values.map List.length).foldl max 0) + 2).toNat

def isNumeric : ColumnType → Bool
  | .integer _ _ | .decimal _ _ | .float | .double => true
  | _ => false

end ColumnType

end TableDialects
