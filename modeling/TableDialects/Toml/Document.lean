import TableDialects.Toml.Scalar

/-!
# TOML documents
-/
namespace TableDialects.Toml

/-- Arrays, braces and keys are nested less deep than this. -/
def nestingLimit : Nat := 80

def isBare (c : Char) : Bool := c.isAlphanum || c == '_' || c == '-'

def simpleKey? (t : Text) : Option (Text × Text) :=
  match t with
  | '\"' :: cs => line? '\"' basicChar? cs
  | '\'' :: cs => line? '\'' literalChar? cs
  | _ =>
    let key := t.takeWhile isBare
    if key.isEmpty then none else some (key, t.drop key.length)

/-- One part of a key with the blanks around it. -/
def keyPart? (t : Text) : Option (Text × Text) :=
  (simpleKey? (skipSpaces t)).map fun p => (p.1, skipSpaces p.2)

/-- A key: the path to its table, and its last part. -/
def key? : Reader (List Text × Text) := fun t => do
  let (first, rest) ← keyPart? t
  let (others, rest) := all (fun
    | '.' :: cs => keyPart? cs
    | _ => none) rest
  let parts := first :: others
  if parts.length < nestingLimit then
    return ((parts.dropLast, parts.getLastD []), rest)
  else none

def assignment? (value : Reader Toml) : Reader ((List Text × Text) × Toml) := fun t => do
  let (key, rest) ← key? t
  let rest ← Calendar.mark? '=' rest
  let (v, rest) ← value (skipSpaces rest)
  return ((key, v), skipSpaces rest)

/-- Blanks, breaks and comments inside an array. -/
def skipLayout (t : Text) : Text :=
  (all (fun t =>
    match t with
    | c :: cs =>
      if isSpace c then some ((), cs)
      else (afterNewline? (skipComment t)).map fun rest => ((), rest)
    | [] => none) t).2

/-- What stands between the brackets of an array. A comma may follow the last item. -/
def items? (value : Reader Toml) (t : Text) : Option (Toml × Text) :=
  let item : Reader Toml := fun t => do
    let (v, rest) ← value (skipLayout t)
    return (v, skipLayout rest)
  let (first, rest) := match item t with
    | some (v, rest) => ([v], rest)
    | none => ([], skipLayout t)
  let (others, rest) := if first.isEmpty then ([], rest) else all (fun
    | ',' :: cs => item cs
    | _ => none) rest
  let rest := match first, rest with
    | _ :: _, ',' :: cs => skipLayout cs
    | _, rest => rest
  match rest with
  | ']' :: rest => some (.array (first ++ others), rest)
  | _ => none

/-- What stands between braces. -/
def fields? (value : Reader Toml) (t : Text) : Option (Toml × Text) := do
  let (pairs, rest) := match assignment? value t with
    | some (a, rest) =>
      let p := all (fun
        | ',' :: cs => assignment? value cs
        | _ => none) rest
      (a :: p.1, p.2)
    | none => ([], skipSpaces t)
  let rest ← Calendar.mark? '\x7d' rest
  let entries ← pairs.foldlM (fun es p => assign? p.1.1 p.1.2 p.2 .braces es) []
  return (.table .braces entries, rest)

/-- A value within which `depth` levels of brackets and braces are left. -/
def value? : Nat → Text → Option (Toml × Text)
  | 0, t => scalar? t
  | depth + 1, t =>
    match t with
    | '[' :: cs => items? (value? depth) cs
    | '\x7b' :: cs => fields? (value? depth) cs
    | _ => scalar? t

/-- A document while it is read: the table that new entries go to, and all entries. -/
structure Document where
  current : List Text := []
  entries : Entries := []

namespace Document

def addTable? (d : Document) (path : List Text) (key : Text) : Option Document := do
  return ⟨path ++ [key], ← change? false (open? key) path .header d.entries⟩

def appendTable? (d : Document) (path : List Text) (key : Text) : Option Document := do
  return ⟨path ++ [key], ← change? false (append? key) path .header d.entries⟩

def addEntry? (d : Document) (path : List Text) (key : Text) (v : Toml) : Option Document := do
  return { d with entries := ← change? false (assign? path key v) d.current .header d.entries }

/-- The document after one more line, and the lines that follow. -/
def line? (d : Document) (t : Text) : Option (Document × Text) :=
  match t with
  | '[' :: '[' :: cs => do
    let ((path, key), rest) ← key? cs
    let rest ← afterLine? (← Calendar.mark? ']' (← Calendar.mark? ']' rest))
    return (← d.appendTable? path key, rest)
  | '[' :: cs => do
    let ((path, key), rest) ← key? cs
    let rest ← afterLine? (← Calendar.mark? ']' rest)
    return (← d.addTable? path key, rest)
  | _ =>
    match afterLine? t with
    | some rest => some (d, rest)
    | none => do
      let (((path, key), v), rest) ← assignment? (value? (nestingLimit - 1)) t
      return (← d.addEntry? path key v, ← afterLine? rest)

/-- The document after at most `fuel` lines, if nothing is left then. -/
def ofLines? : Nat → Document → Text → Option Document
  | 0, d, t => if t.isEmpty then some d else none
  | fuel + 1, d, t =>
    if t.isEmpty then some d
    else do
      let (d, rest) ← d.line? (skipSpaces t)
      ofLines? fuel d rest

/-- The document that a text holds. A byte order mark may stand in front. -/
def read? (t : Text) : Option Document :=
  let t := match t with
    | '\uFEFF' :: cs => cs
    | cs => cs
  ofLines? t.length {} t

end Document

end TableDialects.Toml
