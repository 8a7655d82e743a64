import TileSelect.Json.Reader

/-! # Dates and times

A date is a year of four digits, a month and a day, divided by dashes; a time of day may follow, after a letter with
a time zone and after spaces without one.  Months, days, hours, minutes and seconds have one or two digits and have to
exist.  Numbers of base sixty, which some readers take times for, are digits divided by colons. -/
namespace TileSelect.Yaml

/-- A number of one or two digits at the start of a text, and what follows it. -/
def shortNumber? : List Char → Option (Nat × List Char)
  | [] => none
  | c :: rest =>
    (Text.digit? c).map fun tens =>
      match rest with
      | [] => (tens, [])
      | d :: rest => (Text.digit? d).elim (tens, d :: rest) fun ones => (tens * 10 + ones, rest)

def below? (bound : Nat) (cs : List Char) : Option (List Char) :=
  (shortNumber? cs).bind fun found => if found.1 < bound then some found.2 else none

def after? (c : Char) : List Char → Option (List Char)
  | [] => none
  | d :: rest => if d = c then some rest else none

def isLeap (year : Nat) : Bool := year % 4 == 0 && (year % 100 != 0 || year % 400 == 0)

def daysIn (year month : Nat) : Nat :=
  if month = 2 then if isLeap year then 29 else 28
  else if month = 4 ∨ month = 6 ∨ month = 9 ∨ month = 11 then 30
  else 31

def afterDate? (cs : List Char) : Option (List Char) := do
  let year := cs.takeWhile Json.isDigit
  let rest ← after? '-' (cs.drop year.length)
  let (month, rest) ← shortNumber? rest
  let rest ← after? '-' rest
  let (day, rest) ← shortNumber? rest
  let value := year.foldl (fun n c => n * 10 + (Text.digit? c).getD 0) 0
  if year.length = 4 ∧ 1 ≤ month ∧ month ≤ 12 ∧ 1 ≤ day ∧ day ≤ daysIn value month then some rest
  else none

/-- What follows a fraction of a second, which may be left out. -/
def afterFraction (cs : List Char) : List Char :=
  match cs with
  | mark :: c :: rest =>
    if (mark = '.' ∨ mark = ',') ∧ Json.isDigit c then rest.dropWhile Json.isDigit else cs
  | _ => cs

def afterTime? (cs : List Char) : Option (List Char) := do
  let rest ← below? 24 cs
  let rest ← (after? ':' rest).bind (below? 60)
  let rest ← (after? ':' rest).bind (below? 60)
  some (afterFraction rest)

/-- Is this a time zone: `Z`, or hours and minutes of two digits after a sign? -/
def isZone : List Char → Bool
  | ['Z'] => true
  | [sign, a, b, ':', c, d] =>
    (sign == '+' || sign == '-') && [a, b, c, d].all Json.isDigit &&
      below? 25 [a, b] == some [] && below? 61 [c, d] == some []
  | _ => false

/-- Is a text a date or a date with a time? -/
def isMoment (cs : List Char) : Bool :=
  match afterDate? cs with
  | none => false
  | some [] => true
  | some (c :: rest) =>
    if c = 'T' ∨ c = 't' then (afterTime? rest).any isZone
    else c == ' ' && afterTime? (rest.dropWhile (· == ' ')) == some []

def isSpacedDigit (c : Char) : Bool := Json.isDigit c || c == '_'

/-- Is this what follows the first part of a number of base sixty?  `divided` tells whether a colon was met. -/
def isSixtyTail (divided : Bool) : List Char → Bool
  | [] => divided
  | '.' :: rest => divided && rest.all isSpacedDigit
  | ':' :: a :: b :: rest =>
    if Json.isDigit b then Json.isDigit a && a.toNat < 54 && isSixtyTail true rest
    else Json.isDigit a && isSixtyTail true (b :: rest)
  | [':', a] => Json.isDigit a
  | _ => false

/-- Is a text a number of base sixty? -/
def isSixty (cs : List Char) : Bool :=
  let digits :=
    match cs with
    | '-' :: rest => rest
    | '+' :: rest => rest
    | _ => cs
  digits.head?.any Json.isDigit && isSixtyTail false (digits.dropWhile isSpacedDigit)

end TileSelect.Yaml
