import TableDialects.Text.Basic

/-!
# TOML values

A table remembers how it came about, because that decides what may still be added to it.
-/
namespace TableDialects

/-- What brought a table about: its own header, the header of a table inside it, a dotted key, or
braces. -/
inductive Toml.Origin where
  | header | implied | dotted | braces
  deriving DecidableEq, Repr, Inhabited

inductive Toml where
  | text (t : Text)
  | integer (n : Int)
  | boolean (b : Bool)
  /-- A floating-point number, whose value is not kept. -/
  | float
  /-- A date or time, whose value is not kept. -/
  | dateTime
  | array (items : List Toml)
  | table (origin : Toml.Origin) (entries : List (Text × Toml))
  /-- The tables under one header in double brackets. -/
  | tables (elements : List (List (Text × Toml)))
  deriving Repr, Inhabited

namespace Toml

abbrev Entries := List (Text × Toml)

def get? (key : Text) (es : Entries) : Option Toml := (es.find? (·.1 == key)).map (·.2)

def put (key : Text) (value : Toml) : Entries → Entries
  | [] => [(key, value)]
  | e :: es => if e.1 == key then (key, value) :: es else e :: put key value es

/-- The table under a path, changed by `f`. Tables that are missing on the way are made. Nothing is
added to braces, and by a dotted key nothing to a table with a header of its own. -/
def change? (dotted : Bool) (f : Origin → Entries → Option Entries) :
    List Text → Origin → Entries → Option Entries
  | [], origin, es => f origin es
  | key :: path, _, es =>
    match get? key es with
    | none => do
      let origin := if dotted then Origin.dotted else Origin.implied
      return es ++ [(key, .table origin (← change? dotted f path origin []))]
    | some (.table .braces _) => none
    | some (.table origin inner) =>
      if dotted && origin == .header then none
      else do return put key (.table origin (← change? dotted f path origin inner)) es
    | some (.tables elements) => do
      let inner ← elements.getLast?
      return put key (.tables (elements.dropLast ++ [← change? dotted f path .header inner])) es
    | some _ => none

/-- A new entry. A dotted key ends in a table of dotted keys, and no key is given twice. -/
def insert? (dotted : Bool) (key : Text) (value : Toml) (origin : Origin) (es : Entries) :
    Option Entries :=
  if dotted != (origin == .dotted) || (get? key es).isSome then none else some (es ++ [(key, value)])

/-- A new entry under a key of one or more parts. -/
def assign? (path : List Text) (key : Text) (value : Toml) (origin : Origin) (es : Entries) :
    Option Entries :=
  change? true (insert? (!path.isEmpty) key value) path origin es

/-- A table of that name by its header. Only a table implied by an earlier header may be there. -/
def open? (key : Text) (_ : Origin) (es : Entries) : Option Entries :=
  match get? key es with
  | none => some (es ++ [(key, .table .header [])])
  | some (.table .implied inner) => some (es.filter (·.1 != key) ++ [(key, .table .header inner)])
  | some _ => none

/-- One more table of that name by a header in double brackets. -/
def append? (key : Text) (_ : Origin) (es : Entries) : Option Entries :=
  match get? key es with
  | none => some (es ++ [(key, .tables [[]])])
  | some (.tables elements) => some (put key (.tables (elements ++ [[]])) es)
  | some _ => none

end Toml

end TableDialects
