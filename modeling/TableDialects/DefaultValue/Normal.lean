import TableDialects.Calendar
import TableDialects.Text.Case
import TableDialects.Token.Lexer

/-!
# Normal form of default values

Numbers, dates and literals become single-quoted literals, calls of the clock and truth values
are written in capitals, and anything that mentions NULL outside quotes is NULL.
-/
namespace TableDialects

/-- A single-quoted literal. -/
def quoteLiteral (t : Text) : Text := Text.enclosed '\'' t

namespace DefaultValue

/-- An optional sign, digits, and an optional fraction, in the digits of any script. -/
def isNumeral (t : Text) : Bool :=
  let unsigned := match t with
    | '+' :: cs => cs
    | '-' :: cs => cs
    | cs => cs
  let whole := unsigned.takeWhile Text.isNumeralDigit
  let rest := unsigned.dropWhile Text.isNumeralDigit
  !whole.isEmpty && match rest with
    | [] => true
    | '.' :: places => !places.isEmpty && places.all Text.isNumeralDigit
    | _ => false

/-- What follows an optional precision, digits between parentheses. -/
def afterPrecision (t : Text) : Text :=
  match t with
  | '(' :: cs =>
    match cs.dropWhile Text.isNumeralDigit with
    | ')' :: rest => rest
    | _ => t
  | _ => t

/-- What follows a call of the clock. -/
def afterClock? (t : Text) : Option Text :=
  ((Text.afterFolded? "CURRENT_TIMESTAMP" t).map afterPrecision).or (Text.afterFolded? "NOW()" t)

/-- What follows the start of an event clause. -/
def afterEvent? (t : Text) : Option Text :=
  (Text.afterFolded? " ON UPDATE " t).or (Text.afterFolded? " ON INSERT " t)

/-- A call of the clock, with at most one event clause that calls it too. -/
def isClock (t : Text) : Bool :=
  match afterClock? t with
  | some [] => true
  | some rest => (afterEvent? rest).bind afterClock? == some []
  | none => false

/-- The literal after a character set introducer such as `_utf8mb4`. -/
def introduced? (t : Text) : Option Text :=
  match t with
  | '_' :: cs =>
    let name := cs.takeWhile fun c => (Text.foldChar c).isAlphanum
    let rest := cs.drop name.length
    if !name.isEmpty && rest.head? == some '\'' then some rest else none
  | _ => none

/-- The value of a text that is one quoted literal and nothing else. -/
def literal? (t : Text) : Option Text :=
  match Lexeme.lex t with
  | ([⟨[], _, .quoted _ value⟩], []) => some value
  | _ => none

def normalizePlain (raw : Text) : Option Text :=
  let value := Text.collapsed raw
  let quoted := value.head? == some '\'' || value.head? == some '\"'
  if value.isEmpty then none
  else if !quoted && Text.holds "NULL" (Text.upper value) then some "NULL".toList
  else if isNumeral value then some ('\'' :: (value ++ ['\'']))
  else if isClock value then some (Text.upper value)
  else if Text.oneOf ["true", "false"] value then some (Text.upper value)
  else if !quoted && (Calendar.isDate value || Calendar.isDateTime value) then
    some ('\'' :: (value ++ ['\'']))
  else match literal? (Text.trim raw) with
    | some text => some (quoteLiteral text)
    | none => some value

/-- The normal form of a default value; blank text is no value. -/
def normalize (raw : Text) : Option Text :=
  normalizePlain ((introduced? (Text.trim raw)).getD raw)

end DefaultValue

end TableDialects
