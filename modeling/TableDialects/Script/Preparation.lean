import TableDialects.Script.Segment
import TableDialects.Text.Blank
import TableDialects.Text.Case

/-!
# Preparing scripts

Before a script is read, its backticks go, type names of several words become one word, and the
default collation goes. Single-quoted literals stay as they are.
-/
namespace TableDialects.Script

/-- What follows the words, with blanks between two of them and without regard to case. -/
def afterWords? : List String → Text → Option Text
  | [], t => some t
  | [w], t => Text.afterFolded? w.toList t
  | w :: ws, t => do
    let rest ← Text.afterFolded? w.toList t
    guard (rest.head?.any Text.isBlank)
    afterWords? ws (Text.trimStart rest)

/-- The length of the phrase at the start, if no word goes on before or after it. -/
def phraseLength? (phrase : List String) (before : Option Char) (t : Text) : Option Nat :=
  if before.any Text.isWordPart then none
  else match afterWords? phrase t with
    | some rest => if rest.head?.any Text.isWordPart then none else some (t.length - rest.length)
    | none => none

/-- The length of a default collation and the blanks before it. -/
def collationLength? (before : Option Char) (t : Text) : Option Nat :=
  if before.any Text.isWordPart && !t.head?.any Text.isBlank then none
  else (afterWords? ["COLLATE", "pg_catalog.\"default\""] (Text.trimStart t)).map
    fun rest => t.length - rest.length

/-- Every match that `length?` finds, from left to right, replaced. -/
def replace (length? : Option Char → Text → Option Nat) (replacement : Text)
    (before : Option Char) (t : Text) : Text :=
  match t with
  | [] => []
  | c :: cs =>
    match length? before (c :: cs) with
    | some (n + 1) =>
      replacement ++
        replace length? replacement ((c :: cs.take n).getLast?) (cs.drop n)
    | _ => c :: replace length? replacement (some c) cs
termination_by t.length
decreasing_by all_goals simp only [List.length_drop, List.length_cons]; omega

def replacePhrase (phrase : List String) (replacement t : Text) : Text :=
  replace (phraseLength? phrase) replacement none t

/-- Code in the form in which it is read. -/
def prepareCode (code : Text) : Text :=
  let code := code.filter (· != '\x60')
  let code := replacePhrase ["timestamp", "with", "time", "zone"] "timestamptz" code
  let code := replacePhrase ["timestamp", "without", "time", "zone"] "timestamp" code
  let code := replacePhrase ["character", "varying"] "varchar" code
  replace collationLength? [] none code

/-- A script in the form in which it is read. -/
def prepare (script : Text) : Text :=
  (Segment.split script).flatMap fun s => if s.isLiteral then s.text else prepareCode s.text

end TableDialects.Script
