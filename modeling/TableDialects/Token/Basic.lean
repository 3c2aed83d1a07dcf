import TableDialects.Text.Basic

/-!
# Tokens

A lexeme is a token together with the source it was read from, so the source can be put together
again from its lexemes.
-/
namespace TableDialects

inductive Token where
  /-- A keyword, a bare name or a name between backticks. -/
  | word (name : Text)
  /-- The text between single or double quotes, escapes resolved. -/
  | quoted (quote : Char) (value : Text)
  | number (digits : Text)
  | openParen
  | closeParen
  | comma
  /-- The cast operator, two colons. -/
  | cast
  | punct (c : Char)
  deriving DecidableEq, Repr, Inhabited

namespace Token

def word? : Token → Option Text
  | .word name => some name
  | _ => none

/-- The keyword test, without regard to case. -/
def isWord (keyword : String) : Token → Bool
  | .word name => Text.same name keyword
  | _ => false

def isOneOf (keywords : List String) : Token → Bool
  | .word name => Text.oneOf keywords name
  | _ => false

def isNumber : Token → Bool
  | .number _ => true
  | _ => false

/-- The name that a token may stand for: a word or a text in double quotes. -/
def name? : Token → Option Text
  | .word name => some name
  | .quoted '\"' value => some value
  | _ => none

end Token

structure Lexeme where
  /-- The blanks and comments in front of the token. -/
  gap : Text
  /-- The token as it stands in the source. -/
  text : Text
  token : Token
  deriving DecidableEq, Repr, Inhabited

namespace Lexeme

/-- The source of the lexemes, gaps included. -/
def source (ls : List Lexeme) : Text := ls.flatMap fun l => l.gap ++ l.text

/-- The source of the lexemes from the first token to the last. -/
def sourceFromToken : List Lexeme → Text
  | [] => []
  | l :: ls => l.text ++ source ls

/-- The first and the past-the-end byte of each token, for a source that begins at `offset`. -/
def spans (offset : Nat) : List Lexeme → List (Nat × Nat)
  | [] => []
  | l :: ls =>
    let first := offset + Text.utf8Length l.gap
    let last := first + Text.utf8Length l.text
    (first, last) :: spans last ls

def nextIs (keyword : String) : List Lexeme → Bool
  | l :: _ => l.token.isWord keyword
  | [] => false

end Lexeme

end TableDialects
