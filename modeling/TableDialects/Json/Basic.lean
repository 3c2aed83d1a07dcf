import TableDialects.Text.Basic

/-!
# JSON values

Numbers are whole. The fields of an object keep their order.
-/
namespace TableDialects

inductive Json where
  | null
  | bool (b : Bool)
  | number (n : Int)
  | text (t : Text)
  | array (items : List Json)
  | object (fields : List (Text × Json))
  deriving Repr, Inhabited

namespace Json

def bool? : Json → Option Bool
  | .bool b => some b
  | _ => none

def text? : Json → Option Text
  | .text t => some t
  | _ => none

/-- A number below 2³². -/
def unsigned? : Json → Option UInt32
  | .number n => if 0 ≤ n ∧ n < UInt32.size then some (UInt32.ofNat n.toNat) else none
  | _ => none

def array? : Json → Option (List Json)
  | .array items => some items
  | _ => none

/-- A value that may also be null. -/
def nullable? {α : Type} (read : Json → Option α) : Json → Option (Option α)
  | .null => some none
  | j => (read j).map some

/-- An array, each item of which `read` accepts. -/
def list? {α : Type} (read : Json → Option α) (j : Json) : Option (List α) := do
  (← j.array?).mapM read

def ofNullable {α : Type} (write : α → Json) : Option α → Json
  | some a => write a
  | none => .null

/-- The members of a record in the order of `names`. A record is an object, fields of other names
being ignored, or an array of its first members. -/
def members? (names : List String) : Json → Option (List (Option Json))
  | .object fields => some (names.map fun n => (fields.find? (·.1 == n.toList)).map (·.2))
  | .array items =>
    if items.length ≤ names.length then
      some (items.map some ++ List.replicate (names.length - items.length) none)
    else none
  | _ => none

/-- The member at `i`, which must be there. -/
def member? {α : Type} (ms : List (Option Json)) (i : Nat) (read : Json → Option α) : Option α :=
  ms[i]?.join.bind read

/-- The member at `i`, or `fallback` when it is missing. -/
def memberOr? {α : Type} (ms : List (Option Json)) (i : Nat) (read : Json → Option α)
    (fallback : α) : Option α :=
  match ms[i]?.join with
  | some j => read j
  | none => some fallback

/-- A choice by name, and what belongs to it: a text, or an object with one field. -/
def choice? : Json → Option (Text × Option Json)
  | .text name => some (name, none)
  | .object [(name, body)] => some (name, some body)
  | _ => none

/-- The choice to which nothing belongs, or null. -/
def plainChoice? {α : Type} (choices : List (String × α)) (j : Json) : Option α := do
  let (name, body) ← j.choice?
  match body with
  | none | some .null => (choices.find? (·.1.toList == name)).map (·.2)
  | _ => none

end Json

end TableDialects
