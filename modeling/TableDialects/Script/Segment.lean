import TableDialects.Text.Basic

/-!
# Literals within a script

A script alternates between code and single-quoted literals. Quotes inside quoted names and
comments open no literal.
-/
namespace TableDialects

structure Segment where
  isLiteral : Bool
  text : Text
  deriving DecidableEq, Repr, Inhabited

namespace Segment

/-- How many characters a literal takes after its opening quote. -/
def literalLength : Text → Nat
  | [] => 0
  | '\\' :: _ :: cs => 2 + literalLength cs
  | '\'' :: '\'' :: cs => 2 + literalLength cs
  | '\'' :: _ => 1
  | _ :: cs => 1 + literalLength cs

/-- How many characters there are to the end of the next `mark`, or at all when there is none. -/
def lengthPast (mark t : Text) : Nat :=
  match Text.cutAt? mark t with
  | some p => p.1.length + mark.length
  | none => t.length

/-- How many characters the quoted name or comment at the start takes, or one. -/
def unitLength : Text → Nat
  | '\x60' :: cs => 1 + lengthPast ['\x60'] cs
  | '\"' :: cs => 1 + lengthPast ['\"'] cs
  | '-' :: '-' :: cs => 2 + lengthPast ['\n'] cs
  | '/' :: '*' :: cs => 2 + lengthPast ['*', '/'] cs
  | _ => 1

/-- How many characters stand before the next literal. -/
def codeLength (t : Text) : Nat :=
  match t with
  | [] => 0
  | c :: cs =>
    if c = '\'' then 0
    else unitLength (c :: cs) + codeLength (cs.drop (unitLength (c :: cs) - 1))
termination_by t.length
decreasing_by simp only [List.length_drop, List.length_cons]; omega

/-- The segments of a script in order, code first. -/
def split (t : Text) : List Segment :=
  ⟨false, t.take (codeLength t)⟩ ::
    match _h : t.drop (codeLength t) with
    | [] => []
    | c :: cs =>
      ⟨true, c :: cs.take (literalLength cs)⟩ :: split (cs.drop (literalLength cs))
termination_by t.length
decreasing_by
  have := congrArg List.length _h
  simp only [List.length_drop, List.length_cons] at this ⊢
  omega

end Segment

end TableDialects
