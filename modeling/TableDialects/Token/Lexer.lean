import TableDialects.Text.Letter
import TableDialects.Token.Basic

/-!
# Reading tokens

Every text has a reading: a character that begins nothing else is a token by itself.
-/
namespace TableDialects

namespace Token

/-- A token at the start of a source, the characters it took, and what follows. -/
structure Reading where
  token : Token
  text : Text
  rest : Text

def isQuote (c : Char) : Bool := c == '\'' || c == '\"' || c == '\x60'

/-- A backslash takes away the meaning of the next character, except between backticks. -/
def escapes (quote c : Char) : Bool := c == '\\' && quote != '\x60'

/-- The value, the source and the rest of a literal whose opening quote has been read. -/
def literal? (quote : Char) : Text → Option (Text × Text × Text)
  | [] => none
  | [c] => if escapes quote c then none else if c = quote then some ([], [c], []) else none
  | c :: d :: cs =>
    if escapes quote c then
      (literal? quote cs).map fun p => (d :: p.1, c :: d :: p.2.1, p.2.2)
    else if c = quote then
      if d = quote then (literal? quote cs).map fun p => (c :: p.1, c :: d :: p.2.1, p.2.2)
      else some ([], [c], d :: cs)
    else (literal? quote (d :: cs)).map fun p => (c :: p.1, c :: p.2.1, p.2.2)

/-- Text between backticks is a name. -/
def ofLiteral (quote : Char) (value : Text) : Token :=
  if quote = '\x60' then .word value else .quoted quote value

def isWordStart (c : Char) : Bool := Text.isLetter c || c == '_'

def continuesWord (c : Char) : Bool := Text.isLetterOrNumber c || c == '_' || c == '$'

/-- How many characters a number takes: digits, and a fraction if a digit follows the point. -/
def numberLength (t : Text) : Nat :=
  let whole := (t.takeWhile Char.isDigit).length
  match t.drop whole with
  | '.' :: fraction =>
    let places := (fraction.takeWhile Char.isDigit).length
    if places = 0 then whole else whole + 1 + places
  | _ => whole

/-- The token that begins with `c` and is no literal. -/
def readPlain (c : Char) (cs : Text) : Reading :=
  if c = ':' ∧ cs.head? = some ':' then ⟨.cast, [c, ':'], cs.tail⟩
  else if c.isDigit then
    let n := numberLength (c :: cs) - 1
    ⟨.number (c :: cs.take n), c :: cs.take n, cs.drop n⟩
  else if isWordStart c then
    ⟨.word (c :: cs.takeWhile continuesWord), c :: cs.takeWhile continuesWord,
      cs.dropWhile continuesWord⟩
  else if c = '(' then ⟨.openParen, [c], cs⟩
  else if c = ')' then ⟨.closeParen, [c], cs⟩
  else if c = ',' then ⟨.comma, [c], cs⟩
  else ⟨.punct c, [c], cs⟩

/-- The token that begins with `c`. A quote that is never closed stands for itself. -/
def read (c : Char) (cs : Text) : Reading :=
  if isQuote c then
    match literal? c cs with
    | some p => ⟨ofLiteral c p.1, c :: p.2.1, p.2.2⟩
    | none => readPlain c cs
  else readPlain c cs

theorem length_rest_literal? {quote : Char} {t : Text} {p : Text × Text × Text}
    (h : literal? quote t = some p) : p.2.2.length ≤ t.length := by
  fun_induction literal? quote t generalizing p with
  | case1 => simp at h
  | case2 => simp at h
  | case3 => simp at h; subst h; simp
  | case4 => simp at h
  | case5 c d cs _ ih =>
    obtain ⟨r, hr, rfl⟩ := Option.map_eq_some_iff.1 h
    have := ih hr
    simp only [List.length_cons]; omega
  | case6 cs _ ih =>
    obtain ⟨r, hr, rfl⟩ := Option.map_eq_some_iff.1 h
    have := ih hr
    simp only [List.length_cons]; omega
  | case7 => simp at h; subst h; simp
  | case8 c d cs _ _ ih =>
    obtain ⟨r, hr, rfl⟩ := Option.map_eq_some_iff.1 h
    have := ih hr
    simp only [List.length_cons] at this ⊢; omega

theorem length_rest_readPlain (c : Char) (cs : Text) :
    (readPlain c cs).rest.length ≤ cs.length := by
  unfold readPlain
  split
  · simp
  split
  · simp
  split
  · exact (List.dropWhile_sublist _).length_le
  split
  · simp
  split
  · simp
  split <;> simp

theorem length_rest_read (c : Char) (cs : Text) : (read c cs).rest.length ≤ cs.length := by
  unfold read
  split
  · split
    · next h => exact length_rest_literal? h
    · exact length_rest_readPlain c cs
  · exact length_rest_readPlain c cs

end Token

namespace Lexeme

def isSeparator (c : Char) : Bool := c == ' ' || c == '\t' || c == '\r' || c == '\n'

/-- The length of the rest of a line. A carriage return ends a line only before a line feed; one
that stands alone belongs to no line. -/
def lineLength? : Text → Option Nat
  | [] => some 0
  | '\n' :: _ => some 0
  | '\r' :: cs => if cs.head? = some '\n' then some 0 else none
  | _ :: cs => (lineLength? cs).map (· + 1)

/-- The length of the rest of a block comment, its closing mark included. -/
def blockLength? : Text → Option Nat
  | [] => none
  | '*' :: '/' :: _ => some 2
  | _ :: cs => (blockLength? cs).map (· + 1)

/-- The length of the separator or comment that the text starts with, or zero. -/
def skipLength : Text → Nat
  | '-' :: '-' :: cs => ((lineLength? cs).map (· + 2)).getD 0
  | '/' :: '*' :: cs => ((blockLength? cs).map (· + 2)).getD 0
  | c :: _ => if isSeparator c then 1 else 0
  | [] => 0

/-- The length of the separators and comments that the text starts with. -/
def gapLength (t : Text) : Nat :=
  match t with
  | [] => 0
  | c :: cs =>
    match skipLength (c :: cs) with
    | 0 => 0
    | n + 1 => n + 1 + gapLength (cs.drop n)
termination_by t.length
decreasing_by simp only [List.length_drop, List.length_cons]; omega

/-- The lexemes of a text and what is skipped after the last of them. -/
def lex (t : Text) : List Lexeme × Text :=
  match _h : t.drop (gapLength t) with
  | [] => ([], t)
  | c :: cs =>
    let r := Token.read c cs
    let l := lex r.rest
    (⟨t.take (gapLength t), r.text, r.token⟩ :: l.1, l.2)
termination_by t.length
decreasing_by
  have h₁ := Token.length_rest_read c cs
  have h₂ := congrArg List.length _h
  simp only [List.length_drop, List.length_cons] at h₂
  omega

end Lexeme

/-- The lexemes of a text. -/
def tokenize (t : Text) : List Lexeme := (Lexeme.lex t).1

/-- The values of all quoted literals of a text, in order. -/
def stringLiterals (t : Text) : List Text :=
  (tokenize t).filterMap fun l =>
    match l.token with
    | .quoted _ value => some value
    | _ => none

end TableDialects
