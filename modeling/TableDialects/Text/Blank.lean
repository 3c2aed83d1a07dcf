import TableDialects.Text.Basic

/-!
# Blanks

Blanks are the characters of the Unicode property White_Space.
-/
namespace TableDialects.Text

def isBlank (c : Char) : Bool :=
  c == ' ' || (9 ≤ c.toNat && c.toNat ≤ 13) || c.toNat == 0x85 || c.toNat == 0xA0 ||
    c.toNat == 0x1680 || (0x2000 ≤ c.toNat && c.toNat ≤ 0x200A) || c.toNat == 0x2028 ||
    c.toNat == 0x2029 || c.toNat == 0x202F || c.toNat == 0x205F || c.toNat == 0x3000

def trimStart (t : Text) : Text := t.dropWhile isBlank

def trimEnd (t : Text) : Text := (t.reverse.dropWhile isBlank).reverse

def trim (t : Text) : Text := trimEnd (trimStart t)

/-- Whether the text holds nothing but blanks. -/
def blank (t : Text) : Bool := t.all isBlank

/-- The maximal runs without blanks. -/
def words (t : Text) : List Text := (pieces isBlank t).filter (!·.isEmpty)

/-- The words with one space between two of them. -/
def collapsed (t : Text) : Text := join " " (words t)

end TableDialects.Text
