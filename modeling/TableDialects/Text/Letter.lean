import TableDialects.Text.Basic
import TableDialects.Text.LetterTable

/-!
# Letters, digits and words

Names go by version 17 of Unicode. Numerals and the bounds of words go by version 16.
-/
namespace TableDialects.Text

def within (table : List (Nat × Nat)) (c : Char) : Bool :=
  table.any fun r => r.1 ≤ c.toNat && c.toNat ≤ r.2

def isAscii (c : Char) : Bool := c.toNat < 128

def isLetter (c : Char) : Bool :=
  if isAscii c then c.isAlpha else within LetterTable.letters c

/-- The decimal digits of every script. -/
def isDecimal (c : Char) : Bool :=
  if isAscii c then c.isDigit else within LetterTable.digits c

def isLetterOrNumber (c : Char) : Bool :=
  isLetter c || isDecimal c || within LetterTable.numbers c

def isRecent (c : Char) : Bool := !isAscii c && within LetterTable.recent c

/-- The digits of a numeral. -/
def isNumeralDigit (c : Char) : Bool := isDecimal c && !isRecent c

/-- The characters between which no word ends. -/
def isWordPart (c : Char) : Bool :=
  (isLetter c || isDecimal c || c == '_' || within LetterTable.marks c) && !isRecent c

end TableDialects.Text
