import TableDialects.Text.Letter
import TableDialects.Text.CaseTable

/-!
# Upper and lower case
-/
namespace TableDialects.Text

def CaseTable.Run.covers (r : CaseTable.Run) (n : Nat) : Bool :=
  r.first ≤ n && n ≤ r.last && (n - r.first) % r.step == 0

/-- The full upper case of one character, which may be up to three characters. -/
def upperChar (c : Char) : Text :=
  if isAscii c then [c.toUpper] else
  match CaseTable.expansions.find? (·.1 == c.toNat) with
  | some e => e.2.map Char.ofNat
  | none =>
    match CaseTable.runs.find? (·.covers c.toNat) with
    | some r => [Char.ofNat (c.toNat + r.shift).toNat]
    | none => [c]

def upper (t : Text) : Text := t.flatMap upperChar

/-- Outside ASCII only the Kelvin sign and the dotted capital I have a lower case that holds an
ASCII letter. Lower case serves comparison with ASCII names alone, so all else stays. -/
def lowerChar (c : Char) : Text :=
  if c.toNat = 0x212A then ['k']
  else if c.toNat = 0x130 then ['i', '\u0307']
  else [c.toLower]

def lower (t : Text) : Text := t.flatMap lowerChar

/-- The long s and the Kelvin sign are the only characters outside ASCII that differ from an
ASCII letter by case alone. -/
def foldChar (c : Char) : Char :=
  if c.toNat = 0x17F then 's'
  else if c.toNat = 0x212A then 'k'
  else c.toLower

def fold (t : Text) : Text := t.map foldChar

/-- What follows `head`, when the text starts with it up to case. -/
def afterFolded? (head t : Text) : Option Text :=
  if fold (t.take head.length) = fold head then some (t.drop head.length) else none

end TableDialects.Text
