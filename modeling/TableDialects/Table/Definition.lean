import TableDialects.Table.Fragment

/-!
# Table definitions

A definition is a statement `CREATE TABLE name (fragment, …)`. The columns come first, then the
keys that its constraints and columns declare.
-/
namespace TableDialects

namespace Table

open Lexeme

/-- The parts of a qualified name after its first part, and what follows them. -/
def nameParts? : List Lexeme → Option (List Text × List Lexeme)
  | ⟨_, _, .punct '.'⟩ :: part :: rest => do
    let name ← part.token.name?
    let (names, rest) ← nameParts? rest
    return (name :: names, rest)
  | [⟨_, _, .punct '.'⟩] => none
  | rest => some ([], rest)

/-- The table name after the word `CREATE`, and the lexemes from the opening parenthesis on. -/
def headerAfterCreate? (ls : List Lexeme) : Option (Text × List Lexeme) := do
  let ls := ls.dropWhile (·.token.isOneOf ["TEMPORARY", "TEMP", "UNLOGGED", "GLOBAL", "LOCAL"])
  guard (nextIs "TABLE" ls)
  let ls := ls.drop 1
  let ls := if nextIs "IF" ls && nextIs "NOT" (ls.drop 1) && nextIs "EXISTS" (ls.drop 2) then
    ls.drop 3 else ls
  let first ← ls.head?.bind (·.token.name?)
  let (names, rest) ← nameParts? (ls.drop 1)
  guard (rest.head?.map (·.token) = some .openParen)
  return (Text.join "." (first :: names), rest)

/-- The first table header of a statement: the name, and the lexemes from its parenthesis on. -/
def header? : List Lexeme → Option (Text × List Lexeme)
  | [] => none
  | l :: ls =>
    if l.token.isWord "CREATE" then (headerAfterCreate? ls).or (header? ls) else header? ls

/-- The pieces of a body between its commas, `depth` parentheses being open. -/
def pieces (depth : Nat) : List Lexeme → List (List Lexeme)
  | [] => [[]]
  | l :: ls =>
    if l.token = .comma ∧ depth = 0 then [] :: pieces depth ls
    else
      let deeper := match l.token with
        | .openParen => depth + 1
        | .closeParen => depth - 1
        | _ => depth
      match pieces deeper ls with
      | [] => [[l]]
      | p :: ps => (l :: p) :: ps

/-- The fragments of a body, empty ones left out. -/
def fragments (body : List Lexeme) : List (List Lexeme) := (pieces 0 body).filter (!·.isEmpty)

def hasColumn (columns : List Column) (name : Text) : Bool := columns.any (Column.isNamed name)

/-- The columns among the fragments and whether each carries a primary key. Of two columns with
one name the first counts. -/
def columnsOf (known : List Column) : List Fragment → List (Column × Bool)
  | [] => []
  | .column c inlinePrimary :: fs =>
    if hasColumn known c.name then columnsOf known fs
    else (c, inlinePrimary) :: columnsOf (known ++ [c]) fs
  | _ :: fs => columnsOf known fs

def markKey (t : Table) (name : Text) : Table := t.modify name fun c => { c with key := true }

/-- The table after a table-level constraint. Names that are no columns are left out. -/
def addConstraint (t : Table) : Fragment → Table
  | .primaryKey names =>
    let known := names.filterMap fun n => (t.find? n).map (·.name)
    let marked := known.foldl markKey t
    match names with
    | [] => marked
    | [_] => { marked with primaryKey := known.head? }
    | _ => { marked with primaryKey := none, compositeKey := known }
  | .uniqueKey names => names.foldl markKey t
  | _ => t

/-- Without a table-level key, the first column that carries one is the primary key. -/
def addInlineKey (inlinePrimary : List Text) (t : Table) : Table :=
  if t.primaryKey.isNone && t.compositeKey.isEmpty then { t with primaryKey := inlinePrimary.head? }
  else t

/-- In a table without any key, the first column that counts up by itself is the primary key. -/
def addCountingKey (t : Table) : Table :=
  if t.primaryKey.isNone && !t.columns.any (·.key) then
    match t.columns.find? (·.autoIncrement) with
    | some c =>
      { t with
        columns := modifyFirst (·.autoIncrement) (fun c => { c with key := true }) t.columns
        primaryKey := some c.name }
    | none => t
  else t

def requireKeys (t : Table) : Table :=
  { t with columns := t.columns.map fun c => { c with nullable := c.nullable && !c.key } }

/-- The table of the given fragments. -/
def assemble (name : Text) (fs : List Fragment) : Except Problem Table :=
  let columns := columnsOf [] fs
  if columns.isEmpty then .error (.emptyTable name)
  else
    let start : Table :=
      { name, columns := columns.map fun p => { p.1 with key := p.1.key || p.2 } }
    let inlinePrimary := (columns.filter (·.2)).map (·.1.name)
    .ok (requireKeys (addCountingKey (addInlineKey inlinePrimary (fs.foldl addConstraint start))))

/-- The fragment readings of a table body in order. -/
def readings (body : List Lexeme) : List Fragment.Reading := (fragments body).map Fragment.read

def Reading.problems (r : Fragment.Reading) : List Problem :=
  r.problems ++ match r.result with
    | .ok _ => []
    | .error e => [e]

/-- A table, or the problem that drops the statement, with the problems of single fragments. -/
structure Outcome where
  result : Except Problem Table
  problems : List Problem

/-- The table that a statement defines. -/
def read (statement : Text) : Outcome :=
  match header? (tokenize statement) with
  | none => ⟨.error .noTable, []⟩
  | some (name, ls) =>
    let rs := readings (groupInner ls)
    ⟨assemble name (rs.filterMap fun r => r.result.toOption), rs.flatMap Reading.problems⟩

end Table

end TableDialects
