import TableDialects.Text.Blank

/-!
# Dates and times of day

A date is written `year-month-day`. A time follows it as `hour:minute:second` with an optional
fraction. Blanks may stand before each number.
-/
namespace TableDialects.Calendar

def digitsValue (digits : Text) : Nat := digits.foldl (fun n c => 10 * n + (c.toNat - 48)) 0

/-- A number of at least one and at most `width` digits, and what follows it. -/
def number? (width : Nat) (t : Text) : Option (Nat × Text) :=
  let digits := (t.take width).takeWhile Char.isDigit
  if digits.isEmpty then none else some (digitsValue digits, t.drop digits.length)

/-- A field of one or two digits within its bounds. -/
def field? (least most : Nat) (t : Text) : Option (Nat × Text) :=
  (number? 2 (Text.trimStart t)).filter fun p => least ≤ p.1 && p.1 ≤ most

/-- A year has up to four digits, or a sign and any number of digits. -/
def year? (t : Text) : Option (Int × Text) :=
  let year : Option (Int × Text) :=
    match Text.trimStart t with
    | '-' :: cs => (number? cs.length cs).map fun p => (-(p.1 : Int), p.2)
    | '+' :: cs => (number? cs.length cs).map fun p => ((p.1 : Int), p.2)
    | cs => (number? 4 cs).map fun p => ((p.1 : Int), p.2)
  year.filter fun p => -262143 ≤ p.1 && p.1 ≤ 262142

def isLeap (year : Int) : Bool := year % 4 == 0 && (year % 100 != 0 || year % 400 == 0)

def daysIn (year : Int) (month : Nat) : Nat :=
  if month = 2 then (if isLeap year then 29 else 28)
  else if month = 4 ∨ month = 6 ∨ month = 9 ∨ month = 11 then 30
  else 31

def mark? (c : Char) : Text → Option Text
  | d :: cs => if d = c then some cs else none
  | [] => none

/-- What follows a date that exists. -/
def afterDate? (t : Text) : Option Text := do
  let (year, t) ← year? t
  let (month, t) ← field? 1 12 (← mark? '-' t)
  let (_, t) ← field? 1 (daysIn year month) (← mark? '-' t)
  return t

/-- What follows a time of day. The second 60 is a leap second. -/
def afterTime? (t : Text) : Option Text := do
  let (_, t) ← field? 0 23 t
  let (_, t) ← field? 0 59 (← mark? ':' t)
  let (_, t) ← field? 0 60 (← mark? ':' t)
  match t with
  | '.' :: cs => if (cs.takeWhile Char.isDigit).isEmpty then none else some (cs.dropWhile Char.isDigit)
  | _ => some t

def isDate (t : Text) : Bool := afterDate? t == some []

def isDateTime (t : Text) : Bool := (afterDate? t).bind afterTime? == some []

end TableDialects.Calendar
