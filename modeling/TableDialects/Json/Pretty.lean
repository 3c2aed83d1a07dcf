import TableDialects.Json.Basic

/-!
# Printing JSON on several lines

Each nested line is indented by two more spaces. An empty array or object stays on its line.
-/
namespace TableDialects.Json

def hexDigit (n : Nat) : Char := (Nat.toDigits 16 n).headD '0'

/-- A character within a string. Control characters have short escapes or four digits. -/
def escaped (c : Char) : Text :=
  if c = '\"' then ['\\', '\"']
  else if c = '\\' then ['\\', '\\']
  else if c = '\n' then ['\\', 'n']
  else if c = '\r' then ['\\', 'r']
  else if c = '\t' then ['\\', 't']
  else if c.toNat = 8 then ['\\', 'b']
  else if c.toNat = 12 then ['\\', 'f']
  else if c.toNat < 32 then
    ['\\', 'u', '0', '0', hexDigit (c.toNat / 16), hexDigit (c.toNat % 16)]
  else [c]

def string (t : Text) : Text := '\"' :: (t.flatMap escaped ++ ['\"'])

def newLine (depth : Nat) : Text := '\n' :: List.replicate (2 * depth) ' '

def ofInt (n : Int) : Text :=
  if n < 0 then '-' :: Text.ofNat n.natAbs else Text.ofNat n.natAbs

mutual

def pretty (depth : Nat) : Json → Text
  | .null => "null"
  | .bool b => if b then "true" else "false"
  | .number n => ofInt n
  | .text t => string t
  | .array [] => ['[', ']']
  | .array (j :: js) =>
    '[' :: (newLine (depth + 1) ++ pretty (depth + 1) j ++ prettyItems (depth + 1) js ++
      newLine depth ++ [']'])
  | .object [] => ['\x7b', '\x7d']
  | .object ((name, j) :: fs) =>
    '\x7b' :: (newLine (depth + 1) ++ string name ++ [':', ' '] ++ pretty (depth + 1) j ++
      prettyFields (depth + 1) fs ++ newLine depth ++ ['\x7d'])

def prettyItems (depth : Nat) : List Json → Text
  | [] => []
  | j :: js => ',' :: (newLine depth ++ pretty depth j ++ prettyItems depth js)

def prettyFields (depth : Nat) : List (Text × Json) → Text
  | [] => []
  | (name, j) :: fs =>
    ',' :: (newLine depth ++ string name ++ [':', ' '] ++ pretty depth j ++ prettyFields depth fs)

end

end TableDialects.Json
