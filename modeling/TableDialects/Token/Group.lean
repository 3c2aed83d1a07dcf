import TableDialects.Token.Basic

/-!
# Parenthesised groups
-/
namespace TableDialects

namespace Token

/-- The distance to the token that closes the group, `depth` parentheses being open. A closing
parenthesis too many closes a group of its own. -/
def closing? (depth : Nat) : List Token → Option Nat
  | [] => none
  | .openParen :: ts => (closing? (depth + 1) ts).map (· + 1)
  | .closeParen :: ts => if depth ≤ 1 then some 0 else (closing? (depth - 1) ts).map (· + 1)
  | _ :: ts => (closing? depth ts).map (· + 1)

/-- The index of the token that closes the group opened at `start`, or the last index when the
group is never closed. -/
def groupEnd (ts : List Token) (start : Nat) : Nat :=
  match closing? 0 (ts.drop start) with
  | some n => start + n
  | none => ts.length - 1

end Token

namespace Lexeme

/-- How many lexemes the group at the start takes, both parentheses counted. -/
def groupLength (ls : List Lexeme) : Nat := Token.groupEnd (ls.map (·.token)) 0 + 1

/-- The lexemes of the group at the start, parentheses left out. A group that is never closed
reaches to the end, less a last closing parenthesis. -/
def groupInner (ls : List Lexeme) : List Lexeme :=
  let inner := (ls.take (groupLength ls)).tail
  if (inner.getLast?.map (·.token)) = some .closeParen then inner.dropLast else inner

/-- The source between the parentheses of the group at the start. -/
def groupText (ls : List Lexeme) : Text :=
  let closingGap := ((ls.take (groupLength ls)).tail.getLast?.filter (·.token = .closeParen)).map (·.gap)
  source (groupInner ls) ++ closingGap.getD []

/-- How many lexemes the group at the start takes, none if there is no group. -/
def leadingGroup (ls : List Lexeme) : Nat :=
  if (ls.head?.map (·.token)) = some .openParen then groupLength ls else 0

end Lexeme

end TableDialects
