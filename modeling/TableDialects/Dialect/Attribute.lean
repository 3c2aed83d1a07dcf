import TableDialects.DefaultValue.Event
import TableDialects.DefaultValue.Normal
import TableDialects.Dialect.Basic

/-!
# Identifiers and column attributes of the dialects
-/
namespace TableDialects.Dialect

/-- A table or column name as the dialect writes it. -/
def identifier (d : Dialect) (name : Text) : Text :=
  match d.family with
  | .sqlite => name
  | .mysql => Text.enclosed '\x60' name
  | .postgres => Text.enclosed '\"' name

/-- The number that binary digits stand for, if it is below 2⁶⁴. -/
def binary? (digits : Text) : Option Nat :=
  let digits := match digits with
    | '+' :: cs => cs
    | cs => cs
  if digits.isEmpty || !digits.all (fun c => c == '0' || c == '1') then none
  else
    let n := digits.foldl (fun n c => 2 * n + (c.toNat - 48)) 0
    if n < UInt64.size then some n else none

/-- The value of a bit literal such as `b'101'`. -/
def bitLiteral? (value : Text) : Option Nat :=
  match value with
  | c :: '\'' :: cs =>
    if (c = 'b' || c = 'B') && cs.getLast? == some '\'' then binary? cs.dropLast else none
  | _ => none

/-- SQLite has no event clauses, no `NOW()`, no precision of the clock and no bit literals. -/
def sqliteDefault (value : Text) : Option Text :=
  if (DefaultValue.splitEvent value).2.isSome then none
  else
    let capitals := Text.upperAscii value
    if ("NOW(".toList).isPrefixOf capitals then none
    else if ("CURRENT_TIMESTAMP(".toList).isPrefixOf capitals then
      some "CURRENT_TIMESTAMP".toList
    else match bitLiteral? value with
      | some n => some (quoteLiteral (Text.ofNat n))
      | none => some value

/-- MySQL has no `ON INSERT` clause. -/
def mysqlDefault (value : Text) : Text :=
  match DefaultValue.splitEvent value with
  | (head, some event) =>
    if ("ON INSERT".toList).isPrefixOf (Text.upperAscii event) then head else value
  | (_, none) => value

/-- The default value as the dialect writes it, casts already removed. A value that the dialect
cannot express is dropped. -/
def defaultValue? (d : Dialect) (value : Text) : Option Text :=
  match d.family with
  | .sqlite => sqliteDefault value
  | .mysql => some (mysqlDefault value)
  | .postgres => some (DefaultValue.splitEvent value).1

/-- The attribute of a column that counts up by itself. -/
def autoIncrement? (d : Dialect) : Option Text :=
  match d.family with
  | .mysql => some "AUTO_INCREMENT".toList
  | _ => none

/-- The comment clause of a column. -/
def comment? (d : Dialect) (text : Text) : Option Text :=
  match d.family with
  | .mysql => some ("COMMENT ".toList ++ quoteLiteral text)
  | _ => none

def supportsUnsigned (d : Dialect) : Bool := d.family == .mysql

end TableDialects.Dialect
