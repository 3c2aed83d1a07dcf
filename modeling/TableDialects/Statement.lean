import TableDialects.Text.Blank
import TableDialects.Token.Lexer

/-!
# Statements of a script

A script is read line by line. Every terminator outside a quoted literal closes a statement, a
line `DELIMITER token` changes the terminator, and what a line comment says is dropped.
-/
namespace TableDialects

/-- A statement and the terminator that closed it, which is empty when the script ended first. -/
structure Statement where
  text : Text
  terminator : Text
  deriving DecidableEq, Repr, Inhabited

namespace Statement

/-- Carriage returns, alone or before a line feed, break lines. -/
def lineFeeds : Text → Text
  | [] => []
  | '\r' :: '\n' :: cs => '\n' :: lineFeeds cs
  | '\r' :: cs => '\n' :: lineFeeds cs
  | c :: cs => c :: lineFeeds cs

/-- The lines of a script. A break at the very end begins no further line. -/
def lines (script : Text) : List Text :=
  let ls := Text.pieces (· == '\n') (lineFeeds script)
  if ls.getLast? = some [] then ls.dropLast else ls

/-- The new terminator, when the line is a directive that sets one. -/
def directive? (line : Text) : Option Text :=
  match Text.words line with
  | [keyword, token] => if Text.same keyword "delimiter" then some token else none
  | _ => none

/-- A line cut at its terminators: the pieces they close, the rest up to a comment, and the quote
left open at the end. -/
structure Cut where
  closed : List Text
  rest : Text
  quote : Option Char

def Cut.prepend (t : Text) (k : Cut) : Cut :=
  match k.closed with
  | [] => { k with rest := t ++ k.rest }
  | p :: ps => { k with closed := (t ++ p) :: ps }

def cut (terminator : Text) : Option Char → Text → Cut
  | quote, [] => ⟨[], [], quote⟩
  | some q, c :: cs =>
    if Token.escapes q c then (cut terminator (some q) (cs.drop 1)).prepend (c :: cs.take 1)
    else (cut terminator (if c = q then none else some q) cs).prepend [c]
  | none, c :: cs =>
    if Token.isQuote c then (cut terminator (some c) cs).prepend [c]
    else if c = '-' ∧ cs.head? = some '-' then ⟨[], [], none⟩
    else if terminator.isPrefixOf (c :: cs) then
      let k := cut terminator none (cs.drop (terminator.length - 1))
      { k with closed := [] :: k.closed }
    else (cut terminator none cs).prepend [c]
termination_by _ line => line.length
decreasing_by all_goals simp only [List.length_drop, List.length_cons]; omega

/-- Blank text makes no statement. -/
def closed (terminator text : Text) : List Statement :=
  if Text.blank text then [] else [⟨Text.trim text, terminator⟩]

/-- The open statement after the rest of a line is added to it. -/
def extended (pending rest : Text) (quote : Option Char) : Text :=
  if Text.blank rest && Text.blank pending && quote.isNone then pending
  else pending ++ rest ++ ['\n']

/-- The statements of the lines, `pending` being the text of the open statement and `quote` the
quote open at the end of the line before. -/
def ofLines (terminator pending : Text) (quote : Option Char) : List Text → List Statement
  | [] => closed [] pending
  | line :: ls =>
    if quote.isNone && ("--".toList).isPrefixOf (Text.trim line) then
      ofLines terminator pending quote ls
    else if quote.isNone && Text.blank line then
      ofLines terminator (if Text.blank pending then pending else pending ++ ['\n']) quote ls
    else
      match if quote.isNone then directive? line else none with
      | some token => ofLines token [] none ls
      | none =>
        let k := cut terminator quote line
        match k.closed with
        | [] => ofLines terminator (extended pending k.rest k.quote) k.quote ls
        | p :: ps =>
          closed terminator (pending ++ p) ++ ps.flatMap (closed terminator) ++
            ofLines terminator (extended [] k.rest k.quote) k.quote ls

/-- The statements of a script, which begins with the semicolon as its terminator. -/
def split (script : Text) : List Statement := ofLines ";" [] none (lines script)

end Statement

end TableDialects
