import TableDialects.Dialect.Basic
import TableDialects.Table.Rendering
import TableDialects.Toml.Document

/-!
# Settings

The table `output` of a settings file names the dialect and the layout of conversions.
-/
namespace TableDialects

structure Settings where
  /-- The target dialect as written. -/
  target : Option Text := none
  layout : Layout := {}
  deriving DecidableEq, Repr, Inhabited

namespace Settings

open Toml

def text? : Toml → Option Text
  | .text t => some t
  | _ => none

def isEmptyValue : Toml → Bool
  | .array [] | .table _ [] | .tables [] => true
  | _ => false

def lineEndingNamed? (name : Text) : Option LineEnding :=
  if name = "crlf".toList then some .crlf
  else if name = "lf".toList then some .lf
  else none

/-- A line ending by its name, or by a table whose only key is the name and whose value is
empty. -/
def lineEnding? : Toml → Option LineEnding
  | .text name => lineEndingNamed? name
  | .table _ [(name, v)] => if isEmptyValue v then lineEndingNamed? name else none
  | _ => none

def indent? : Toml → Option Nat
  | .integer n => if 0 ≤ n then some n.toNat else none
  | _ => none

/-- A setting that is there as `read` has it, or one that is not there at its default. -/
def setting {α : Type} (read : Toml → Option α) (default : α) : Option Toml → Option α
  | some v => read v
  | none => some default

/-- The settings of the table `output`, in which no other keys may stand. An array gives the
target, the line ending and the indent in this order. -/
def ofOutput? : Toml → Option Settings
  | .table _ es => do
    guard (es.all fun e => ["target", "line_ending", "indent"].any fun k => k.toList == e.1)
    let target ← setting (fun v => (text? v).map some) none (get? "target" es)
    let lineEnding ← setting lineEnding? .crlf (get? "line_ending" es)
    let indent ← setting indent? 4 (get? "indent" es)
    return ⟨target, ⟨lineEnding, indent⟩⟩
  | .array (first :: others) => do
    let target ← text? first
    let lineEnding ← setting lineEnding? .crlf others[0]?
    let indent ← setting indent? 4 others[1]?
    return ⟨some target, ⟨lineEnding, indent⟩⟩
  | _ => none

def ofEntries? (es : Entries) : Option Settings := do
  guard (es.all (·.1 == "output".toList))
  setting ofOutput? {} (get? "output" es)

/-- The target dialect, if the settings name one. -/
def dialect? (s : Settings) : Except Problem (Option Dialect) :=
  match s.target with
  | some name => (Dialect.ofName name).map some
  | none => .ok none

/-- The settings in a text. An unknown dialect is a problem at once. -/
def read (t : Text) : Except Problem Settings := do
  let some document := Document.read? t | .error (.settings "the text is not valid TOML")
  let some settings := ofEntries? document.entries
    | .error (.settings "a key or the type of a value is not known")
  let _ ← settings.dialect?
  return settings

end Settings

end TableDialects
