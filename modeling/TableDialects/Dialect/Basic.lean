import TableDialects.Problem
import TableDialects.Text.Blank

/-!
# Dialects
-/
namespace TableDialects

inductive Dialect where
  | sqlite | mysql | mariadb | postgres
  deriving DecidableEq, Repr, Inhabited

namespace Dialect

def all : List Dialect := [.sqlite, .mysql, .mariadb, .postgres]

/-- The names of a dialect. The first is the canonical one. -/
def aliases : Dialect → List String
  | .sqlite => ["sqlite"]
  | .mysql => ["mysql"]
  | .mariadb => ["mariadb"]
  | .postgres => ["pgsql", "postgresql", "postgres"]

def name (d : Dialect) : Text := (d.aliases.headD "").toList

/-- The dialect of that name, without regard to case and to blanks around the name. -/
def ofName (name : Text) : Except Problem Dialect :=
  match all.find? fun d => Text.oneOf d.aliases (Text.trim name) with
  | some d => .ok d
  | none => .error (.unknownDialect name)

/-- The dialect of exactly that name. -/
def ofExactName? (name : Text) : Option Dialect :=
  all.find? fun d => d.aliases.any fun a => a.toList == name

/-- Dialects of one family render alike. -/
inductive Family where
  | sqlite | mysql | postgres
  deriving DecidableEq, Repr, Inhabited

def family : Dialect → Family
  | .sqlite => .sqlite
  | .mysql | .mariadb => .mysql
  | .postgres => .postgres

end Dialect

end TableDialects
