import TableDialects.Text.Basic

/-!
# Problems
-/
namespace TableDialects

inductive Problem where
  /-- The statement has no `CREATE TABLE … (` header. -/
  | noTable
  /-- No column of the table could be read. -/
  | emptyTable (table : Text)
  | unrecognizedType (column typeName : Text)
  /-- The keyword `DEFAULT` without a value. -/
  | malformedDefault (column : Text)
  /-- An enumeration without values. -/
  | malformedEnumeration (column : Text)
  | unknownDialect (name : Text)
  | settings (detail : Text)
  | inputOutput (detail : Text)
  deriving DecidableEq, Repr, Inhabited

namespace Problem

def message : Problem → Text
  | .noTable => "No CREATE TABLE definition found"
  | .emptyTable table => "Table '".toList ++ table ++ "' has no recognized columns".toList
  | .unrecognizedType column typeName =>
    "Unrecognized type '".toList ++ typeName ++ "' for column '".toList ++ column ++ ['\'']
  | .malformedDefault column =>
    "Malformed DEFAULT clause for column '".toList ++ column ++ ['\'']
  | .malformedEnumeration column =>
    "Malformed ENUM/SET value list for column '".toList ++ column ++ ['\'']
  | .unknownDialect name =>
    "Unknown dialect: '".toList ++ name ++
      "'. Expected: sqlite, mysql, mariadb, pgsql or postgresql".toList
  | .settings detail => "Configuration error: ".toList ++ detail
  | .inputOutput detail => "IO error: ".toList ++ detail

/-- Whether nothing of the statement is kept. -/
def dropsStatement : Problem → Bool
  | .noTable | .emptyTable _ => true
  | _ => false

end Problem

end TableDialects
