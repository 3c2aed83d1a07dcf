import TableDialects.Calendar
import TableDialects.Toml.Value

/-!
# TOML strings, numbers and times
-/
namespace TableDialects.Toml

/-- A reader gives a value and what follows it. -/
abbrev Reader (α : Type) := Text → Option (α × Text)

/-- At most `fuel` items in a row. -/
def many {α : Type} (item : Reader α) : Nat → Text → List α × Text
  | 0, t => ([], t)
  | fuel + 1, t =>
    match item t with
    | some (a, rest) => let p := many item fuel rest; (a :: p.1, p.2)
    | none => ([], t)

/-- As many items as there are; each takes a character at least. -/
def all {α : Type} (item : Reader α) (t : Text) : List α × Text := many item t.length t

def isSpace (c : Char) : Bool := c == ' ' || c == '\t'

def skipSpaces (t : Text) : Text := t.dropWhile isSpace

def afterNewline? : Text → Option Text
  | '\n' :: cs => some cs
  | '\r' :: '\n' :: cs => some cs
  | _ => none

/-- The characters that stand for themselves everywhere: all but control characters. -/
def isPlain (c : Char) : Bool := c == '\t' || (32 ≤ c.toNat && c.toNat != 127)

def skipComment : Text → Text
  | '#' :: cs => cs.dropWhile isPlain
  | t => t

/-- What follows the end of the line, which may hold a comment. -/
def afterLine? (t : Text) : Option Text :=
  match skipComment (skipSpaces t) with
  | [] => some []
  | rest => afterNewline? rest

def hexValue? (c : Char) : Option Nat :=
  if c.isDigit then some (c.toNat - 48)
  else if 'a' ≤ c ∧ c ≤ 'f' then some (c.toNat - 87)
  else if 'A' ≤ c ∧ c ≤ 'F' then some (c.toNat - 55)
  else none

/-- The character whose code point has exactly `count` hexadecimal digits. -/
def codePoint? (count : Nat) (t : Text) : Option (Char × Text) := do
  let digits ← (t.take count).mapM hexValue?
  let n := digits.foldl (fun n d => 16 * n + d) 0
  if digits.length = count ∧ n.isValidChar then some (Char.ofNat n, t.drop count) else none

/-- The character that an escape stands for, its backslash already read. -/
def escape? : Reader Char
  | 'b' :: cs => some ('\x08', cs)
  | 't' :: cs => some ('\t', cs)
  | 'n' :: cs => some ('\n', cs)
  | 'f' :: cs => some ('\x0c', cs)
  | 'r' :: cs => some ('\r', cs)
  | '\"' :: cs => some ('\"', cs)
  | '\\' :: cs => some ('\\', cs)
  | 'u' :: cs => codePoint? 4 cs
  | 'U' :: cs => codePoint? 8 cs
  | _ => none

def basicChar? : Reader Char
  | '\\' :: cs => escape? cs
  | c :: cs => if isPlain c && c != '\"' then some (c, cs) else none
  | [] => none

def literalChar? : Reader Char
  | c :: cs => if isPlain c && c != '\'' then some (c, cs) else none
  | [] => none

def newlineChar? (t : Text) : Option (Char × Text) := (afterNewline? t).map fun rest => ('\n', rest)

def layoutChar? : Reader Unit
  | c :: cs =>
    if isSpace c then some ((), cs) else (afterNewline? (c :: cs)).map fun rest => ((), rest)
  | [] => none

/-- A line break after a backslash, which goes along with all blanks and breaks after it. -/
def afterJoint? : Text → Option Text
  | '\\' :: cs => (afterNewline? (skipSpaces cs)).map fun rest => (all layoutChar? rest).2
  | _ => none

/-- One or two quotes that do not belong to a closing mark. -/
def innerQuotes? (quote : Char) (t : Text) : Option (Text × Text) :=
  let quotes := t.takeWhile (· == quote)
  if quotes.isEmpty || 3 ≤ quotes.length then none else some (quotes, t.drop quotes.length)

def multilineBasicPiece? (t : Text) : Option (Text × Text) :=
  ((afterJoint? t).map fun rest => ([], rest)).or <|
    (innerQuotes? '\"' t).or <|
      ((basicChar? t).or (newlineChar? t)).map fun p => ([p.1], p.2)

def multilineLiteralPiece? (t : Text) : Option (Text × Text) :=
  (innerQuotes? '\'' t).or <|
    ((literalChar? t).or (newlineChar? t)).map fun p => ([p.1], p.2)

/-- A string on one line, its opening quote already read. -/
def line? (quote : Char) (item : Reader Char) (t : Text) : Option (Text × Text) :=
  match all item t with
  | (cs, c :: rest) => if c = quote then some (cs, rest) else none
  | _ => none

/-- A string on several lines, its opening mark already read. Up to two quotes may stand before
the closing mark. -/
def multiline? (quote : Char) (piece : Reader Text) (t : Text) : Option (Text × Text) :=
  let (pieces, rest) := all piece ((afterNewline? t).getD t)
  let quotes := rest.takeWhile (· == quote)
  if quotes.length < 3 then none
  else
    let extra := min (quotes.length - 3) 2
    some (pieces.flatten ++ List.replicate extra quote, rest.drop (extra + 3))

/-- A string of any of the four forms. -/
def string? : Reader Text
  | '\"' :: '\"' :: '\"' :: cs => multiline? '\"' multilineBasicPiece? cs
  | '\"' :: cs => line? '\"' basicChar? cs
  | '\'' :: '\'' :: '\'' :: cs => multiline? '\'' multilineLiteralPiece? cs
  | '\'' :: cs => line? '\'' literalChar? cs
  | _ => none

/-- Digits of which `digit` accepts each, with single underscores between two of them. -/
def digits? (digit : Char → Bool) : Reader Text
  | c :: cs =>
    if digit c then
      let p := all (fun
        | '_' :: d :: rest => if digit d then some (d, rest) else none
        | d :: rest => if digit d then some (d, rest) else none
        | [] => none) cs
      some (c :: p.1, p.2)
    else none
  | [] => none

def splitSign : Text → Bool × Text
  | '-' :: cs => (true, cs)
  | '+' :: cs => (false, cs)
  | cs => (false, cs)

/-- The digits of a decimal number without a leading zero. -/
def wholeDigits? : Reader Text
  | '0' :: rest => some (['0'], rest)
  | t => digits? Char.isDigit t

def signed (negative : Bool) (digits : Text) : Int :=
  if negative then -(Calendar.digitsValue digits : Int) else Calendar.digitsValue digits

def decimal? : Reader Int := fun t =>
  (wholeDigits? (splitSign t).2).map fun p => (signed (splitSign t).1 p.1, p.2)

def radix? (base : Nat) : Reader Int := fun t => do
  let isDigit (c : Char) : Bool := (hexValue? c).any (· < base)
  let (digits, rest) ← digits? isDigit t
  return (digits.foldl (fun (n : Int) c => base * n + (hexValue? c).getD 0) 0, rest)

/-- A whole number that fits into 64 bits. -/
def integer? (t : Text) : Option (Toml × Text) :=
  let number := match t with
    | '0' :: 'x' :: cs => radix? 16 cs
    | '0' :: 'o' :: cs => radix? 8 cs
    | '0' :: 'b' :: cs => radix? 2 cs
    | _ => decimal? t
  (number.filter fun p => Int64.minValue.toInt ≤ p.1 && p.1 ≤ Int64.maxValue.toInt).map fun p => (.integer p.1, p.2)

def exponent? : Reader Int
  | 'e' :: cs | 'E' :: cs =>
    (digits? Char.isDigit (splitSign cs).2).map fun p => (signed (splitSign cs).1 p.1, p.2)
  | _ => none

/-- The digits after the point. -/
def fraction? : Reader Text
  | '.' :: cs => digits? Char.isDigit cs
  | _ => none

/-- The least number that rounds to infinity in double precision: halfway between the greatest
finite number and 2¹⁰²⁴. -/
def overflowBound : Nat := ((1 <<< 54) - 1) <<< 970

/-- Whether the digits, times ten to the power of the exponent, round to infinity. No power is
computed that cannot matter, as an exponent may be of any size. -/
def overflows (digits : Text) (exponent : Int) : Bool :=
  let n := Calendar.digitsValue digits
  if 0 ≤ exponent then
    n != 0 && (309 ≤ exponent || overflowBound ≤ n * Nat.pow 10 exponent.toNat)
  else -exponent ≤ digits.length && overflowBound * Nat.pow 10 (-exponent).toNat ≤ n

/-- A number with a fraction, an exponent, or both. One that rounds to infinity is refused unless
it is negative. -/
def finite? (t : Text) : Option (Toml × Text) := do
  let (whole, rest) ← wholeDigits? (splitSign t).2
  let (places, rest) := (fraction? rest).getD ([], rest)
  let (exponent, rest) ← (exponent? rest).or (if places.isEmpty then none else some (0, rest))
  if !(splitSign t).1 && overflows (whole ++ places) (exponent - places.length) then none
  else some (.float, rest)

def float? (t : Text) : Option (Toml × Text) :=
  let special := (splitSign t).2
  if special.take 3 = ['i', 'n', 'f'] ∨ special.take 3 = ['n', 'a', 'n'] then
    some (.float, special.drop 3)
  else finite? t

def boolean? : Reader Toml
  | 't' :: 'r' :: 'u' :: 'e' :: cs => some (.boolean true, cs)
  | 'f' :: 'a' :: 'l' :: 's' :: 'e' :: cs => some (.boolean false, cs)
  | _ => none

/-- A number of exactly `width` digits within its bounds. -/
def padded? (width least most : Nat) (t : Text) : Option (Nat × Text) :=
  (Calendar.number? width t).filter fun p =>
    (t.take width).length = width && (t.take width).all Char.isDigit && least ≤ p.1 && p.1 ≤ most

def afterDate? (t : Text) : Option Text := do
  let (year, t) ← padded? 4 0 9999 t
  let (month, t) ← padded? 2 1 12 (← Calendar.mark? '-' t)
  let (_, t) ← padded? 2 1 (Calendar.daysIn year month) (← Calendar.mark? '-' t)
  return t

def afterTime? (t : Text) : Option Text := do
  let (_, t) ← padded? 2 0 23 t
  let (_, t) ← padded? 2 0 59 (← Calendar.mark? ':' t)
  let (_, t) ← padded? 2 0 60 (← Calendar.mark? ':' t)
  match t with
  | '.' :: c :: cs => return if c.isDigit then cs.dropWhile Char.isDigit else t
  | _ => return t

def afterOffset? (t : Text) : Option Text :=
  match t with
  | c :: cs =>
    if c = 'Z' ∨ c = 'z' then some cs
    else if c = '+' ∨ c = '-' then do
      let (_, t) ← padded? 2 0 23 cs
      let (_, t) ← padded? 2 0 59 (← Calendar.mark? ':' t)
      return t
    else none
  | [] => none

/-- The time after a date, which a letter or a space divides from it. -/
def afterTimeOfDate? (t : Text) : Option Text :=
  match t with
  | c :: cs =>
    if c = 'T' ∨ c = 't' ∨ c = ' ' then (afterTime? cs).map fun t => (afterOffset? t).getD t
    else none
  | [] => none

def dateTime? (t : Text) : Option (Toml × Text) :=
  (((afterDate? t).map fun t => (afterTimeOfDate? t).getD t).or (afterTime? t)).map
    fun rest => (.dateTime, rest)

/-- A value that holds no other values. -/
def scalar? (t : Text) : Option (Toml × Text) :=
  ((string? t).map fun p => (.text p.1, p.2)).or <|
    (dateTime? t).or <| (float? t).or <| (integer? t).or (boolean? t)

end TableDialects.Toml
