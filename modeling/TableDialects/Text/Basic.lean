/-!
# Texts

A text is the list of its characters, so every reader is a recursion on its input.
-/
namespace TableDialects

abbrev Text := List Char

instance : Coe String Text := ⟨String.toList⟩

namespace Text

/-- Letters outside ASCII stay as they are. -/
def lowerAscii (t : Text) : Text := t.map Char.toLower

/-- Letters outside ASCII stay as they are. -/
def upperAscii (t : Text) : Text := t.map Char.toUpper

/-- Keywords and names are compared without regard to the case of ASCII letters. -/
def same (a b : Text) : Bool := lowerAscii a == lowerAscii b

def oneOf (names : List String) (t : Text) : Bool := names.any fun name => same t name.toList

/-- The text before the first `needle`, and the text from there on. -/
def cutAt? (needle : Text) : Text → Option (Text × Text)
  | [] => if needle.isEmpty then some ([], []) else none
  | c :: cs =>
    if needle.isPrefixOf (c :: cs) then some ([], c :: cs)
    else (cutAt? needle cs).map fun p => (c :: p.1, p.2)

def holds (needle t : Text) : Bool := (cutAt? needle t).isSome

def consHead (c : Char) : List Text → List Text
  | [] => [[c]]
  | p :: ps => (c :: p) :: ps

/-- The pieces between the characters that `cut` picks; there is always at least one. -/
def pieces (cut : Char → Bool) : Text → List Text
  | [] => [[]]
  | c :: cs => if cut c then [] :: pieces cut cs else consHead c (pieces cut cs)

def join (separator : Text) (parts : List Text) : Text := separator.intercalate parts

/-- Each `q` is written twice. -/
def doubled (q : Char) (t : Text) : Text := t.flatMap fun c => if c = q then [q, q] else [c]

/-- The text between two `q`, each inner `q` written twice. -/
def enclosed (q : Char) (t : Text) : Text := q :: (doubled q t ++ [q])

def utf8Length (t : Text) : Nat := t.foldl (fun n c => n + c.utf8Size) 0

/-- The text of the first bytes, unless they end within a character. -/
def takeBytes? : Nat → Text → Option Text
  | 0, _ | _, [] => some []
  | n, c :: cs => if c.utf8Size ≤ n then (takeBytes? (n - c.utf8Size) cs).map (c :: ·) else none

def ofNat (n : Nat) : Text := Nat.toDigits 10 n

end Text

end TableDialects
