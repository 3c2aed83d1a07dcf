import TableDialects.Calendar
import TableDialects.Token.Group

/-!
# Default expressions

How many lexemes the value after `DEFAULT` or `ON UPDATE` takes. A value is one literal, number,
word, call or group; casts and event clauses may follow it.
-/
namespace TableDialects.DefaultValue

/-- The words that start a clause and so are no values. -/
def clauseKeywords : List String :=
  ["NOT", "PRIMARY", "UNIQUE", "KEY", "AUTO_INCREMENT", "AUTOINCREMENT", "IDENTITY", "GENERATED",
    "DEFAULT", "COMMENT", "UNSIGNED", "SIGNED", "ZEROFILL", "COLLATE", "CHARSET", "REFERENCES",
    "CHECK", "CONSTRAINT"]

/-- Whether the lexeme stands directly after the one before and goes on with a date or time. -/
def continuesRun (l : Lexeme) : Bool :=
  l.gap.isEmpty && match l.token with
    | .number _ => true
    | .punct c => c == '-' || c == ':' || c == '.'
    | _ => false

/-- How many lexemes the run at the start takes. -/
def runLength : List Lexeme → Nat
  | [] => 0
  | _ :: ls => 1 + (ls.takeWhile continuesRun).length

/-- How many lexemes a number takes, with the rest of a date and the time after it. -/
def temporalLength (ls : List Lexeme) : Nat :=
  let dateLength := runLength ls
  if dateLength = 1 || !Calendar.isDate (Lexeme.sourceFromToken (ls.take dateLength)) then
    dateLength
  else
    let following := ls.drop dateLength
    let timeLength := runLength following
    if (following.head?.any (·.token.isNumber)) &&
        (Lexeme.sourceFromToken (following.take timeLength)).contains ':' then
      dateLength + timeLength
    else dateLength

/-- How many lexemes a word takes as a value: a call has its arguments directly after the name,
and a prefixed literal its quote. -/
def wordLength : List Lexeme → Nat
  | _ :: next :: ls =>
    if !next.gap.isEmpty then 1
    else match next.token with
      | .openParen => 1 + Lexeme.groupLength (next :: ls)
      | .quoted '\'' _ => 2
      | _ => 1
  | _ => 1

/-- How many lexemes the value at the start takes. -/
def valueLength? (ls : List Lexeme) : Option Nat :=
  match ls with
  | [] => none
  | first :: rest =>
    match first.token with
    | .quoted _ _ => some 1
    | .openParen => some (Lexeme.groupLength ls)
    | .word w => if Text.oneOf clauseKeywords w then none else some (wordLength ls)
    | .number _ => some (temporalLength ls)
    | .punct c =>
      if (c == '-' || c == '+') && rest.head?.any (·.token.isNumber) then some 2 else none
    | _ => none

/-- How many lexemes follow a cast operator as its type. -/
def castTypeLength : List Lexeme → Nat
  | [] => 0
  | first :: rest =>
    if first.token.word?.isSome then
      let words := (rest.takeWhile (·.token.isOneOf
        ["varying", "precision", "with", "without", "time", "zone"])).length
      1 + words + Lexeme.leadingGroup (rest.drop words)
    else 0

/-- How many lexemes the cast or event clause at the start takes. -/
def suffixLength? : List Lexeme → Option Nat
  | [] => none
  | first :: rest =>
    if first.token = .cast then some (1 + castTypeLength rest)
    else if first.token.isWord "ON" && (rest.head?.any (·.token.isOneOf ["UPDATE", "INSERT"])) then
      (valueLength? (rest.drop 1)).map (· + 2)
    else none

/-- How many lexemes the casts and event clauses at the start take. -/
def suffixesLength (ls : List Lexeme) : Nat :=
  match suffixLength? ls with
  | some (n + 1) => if ls.isEmpty then 0 else n + 1 + suffixesLength (ls.drop (n + 1))
  | _ => 0
termination_by ls.length
decreasing_by
  cases ls with
  | nil => contradiction
  | cons => simp only [List.length_drop, List.length_cons]; omega

/-- How many lexemes the default expression at the start takes. -/
def expressionLength? (ls : List Lexeme) : Option Nat :=
  (valueLength? ls).map fun n => n + suffixesLength (ls.drop n)

end TableDialects.DefaultValue
