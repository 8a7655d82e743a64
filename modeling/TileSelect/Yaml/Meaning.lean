import TileSelect.Yaml.Basic
import TileSelect.Yaml.Moment

/-! # What plain scalars mean

A plain scalar may mean nothing, a truth value, a number or a moment; otherwise it means its text.  What it may mean
is told by its first character, so a text that starts with an underscore is a text.  Integers are decimal, hexadecimal
after `0x`, octal after `0o` or a zero, binary after `0b`.  Every other number stands for the double nearest to it. -/
namespace TileSelect.Yaml

inductive Meaning where
  | null
  | truth
  | integer (value : Int)
  /-- A finite double, by its sign and its whole part. -/
  | real (negative : Bool) (whole : Nat)
  | infinite (negative : Bool)
  | notANumber
  /-- A date, or a date with a time. -/
  | moment
  | text
  deriving DecidableEq

def digitsValue? (base : Nat) (cs : List Char) : Option Nat :=
  if cs.isEmpty then none
  else
    cs.foldlM (fun n c => do
      let d ← Json.hexDigit? c
      if d < base then some (n * base + d) else none) 0

/-- The value of an integer without a sign. -/
def magnitude? : List Char → Option Nat
  | '0' :: 'x' :: cs => digitsValue? 16 cs
  | '0' :: 'X' :: cs => digitsValue? 16 cs
  | '0' :: 'o' :: cs => digitsValue? 8 cs
  | '0' :: 'O' :: cs => digitsValue? 8 cs
  | '0' :: 'b' :: cs => digitsValue? 2 cs
  | '0' :: 'B' :: cs => digitsValue? 2 cs
  | '0' :: c :: cs => digitsValue? 8 (c :: cs)
  | cs => digitsValue? 10 cs

/-- An integer with a sign is within 64 signed bits, one without within 64 unsigned bits. -/
def signed? (magnitude : List Char → Option Nat) : List Char → Option Int
  | '-' :: cs => (magnitude cs).bind fun n => if n ≤ Text.signedBound64 then some (-(n : Int)) else none
  | '+' :: cs => (magnitude cs).bind fun n => if n < Text.signedBound64 then some (n : Int) else none
  | cs => (magnitude cs).bind fun n => if n ≤ Text.maxUnsigned64 then some (n : Int) else none

/-- The value of an integer; a sign may also follow the letter of a base. -/
def integer? (cs : List Char) : Option Int :=
  (signed? magnitude? cs).or
    (match cs with
    | '0' :: 'b' :: cs => signed? (digitsValue? 2) cs
    | '0' :: 'o' :: cs => signed? (digitsValue? 8) cs
    | _ => none)

/-- A quotient rounded to the nearest integer, a half to the even one. -/
def roundQuotient (num den : Nat) : Nat :=
  let whole := num / den
  let twice := 2 * (num % den)
  if den < twice ∨ (twice = den ∧ whole % 2 = 1) then whole + 1 else whole

def doubleBits : Nat := 53

/-- The whole part of the double nearest to a quotient.  Doubles are apart by the last of the bits they keep, counted
from the leading bit of the whole part; a quotient below one half has no whole part however it is rounded. -/
def nearestWhole (num den : Nat) : Nat :=
  let whole := num / den
  let bits := if whole = 0 then 0 else Nat.log2 whole + 1
  if bits ≤ doubleBits then
    let scale := Nat.pow 2 (doubleBits - bits)
    roundQuotient (num * scale) den / scale
  else
    let scale := Nat.pow 2 (bits - doubleBits)
    roundQuotient num (den * scale) * scale

/-- Quotients from here on are past the largest double. -/
def doubleBound : Nat := Nat.pow 2 1024 - Nat.pow 2 970

/-- The powers of ten past which a double is zero or does not exist. -/
def maxExponent : Nat := 400

/-- The double nearest to `digits` times a power of ten, if there is one. -/
def double? (negative : Bool) (digits places : Nat) (exponent : Int) : Option Meaning :=
  let power := exponent - places
  let length := (Nat.toDigits 10 digits).length
  if digits = 0 ∨ power + length < -maxExponent then some (.real negative 0)
  else if (maxExponent : Int) < power + length then none
  else
    let num := digits * Nat.pow 10 power.toNat
    let den := Nat.pow 10 (-power).toNat
    if doubleBound * den ≤ num then none else some (.real negative (nearestWhole num den))

def exponent? : List Char → Option Int
  | [] => some 0
  | e :: cs =>
    if e = 'e' ∨ e = 'E' then
      match cs with
      | '-' :: cs => (digitsValue? 10 cs).map fun n => -(n : Int)
      | '+' :: cs => (digitsValue? 10 cs).map Int.ofNat
      | cs => (digitsValue? 10 cs).map Int.ofNat
    else none

/-- The double that a decimal number without a sign stands for. -/
def decimal? (negative : Bool) (cs : List Char) : Option Meaning :=
  let whole := cs.takeWhile Json.isDigit
  match cs.dropWhile Json.isDigit with
  | '.' :: rest =>
    let fraction := rest.takeWhile Json.isDigit
    (digitsValue? 10 (whole ++ fraction)).bind fun digits =>
      (exponent? (rest.dropWhile Json.isDigit)).bind (double? negative digits fraction.length)
  | rest => (digitsValue? 10 whole).bind fun digits => (exponent? rest).bind (double? negative digits 0)

def signedDecimal? : List Char → Option Meaning
  | '-' :: cs => decimal? true cs
  | '+' :: cs => decimal? false cs
  | cs => decimal? false cs

def infinite? (negative : Bool) (cs : List Char) : Option Meaning :=
  if [".inf", ".Inf", ".INF"].contains (String.ofList cs) then some (.infinite negative) else none

def signedInfinite? : List Char → Option Meaning
  | '-' :: cs => infinite? true cs
  | '+' :: cs => infinite? false cs
  | _ => none

/-- Does every underscore stand between two digits?  `digit` tells whether one stands before the text. -/
def separatesDigits (digit : Bool) : List Char → Bool
  | [] => true
  | '_' :: c :: cs => digit && Json.isDigit c && separatesDigits true cs
  | ['_'] => false
  | c :: cs => separatesDigits (Json.isDigit c) cs

def pointMeaning (text : String) : Meaning :=
  if [".nan", ".NaN", ".NAN"].contains text then .notANumber
  else
    ((infinite? false text.toList).or
      (if separatesDigits false text.toList then decimal? false (text.toList.filter (· != '_'))
      else none)).getD .text

/-- What a text means that starts with a digit or a sign; underscores in a number are ignored. -/
def numberMeaning (text : String) : Meaning :=
  let cs := text.toList.filter (· != '_')
  if isMoment text.toList then .moment
  else
    ((signedInfinite? text.toList).or
      (((integer? cs).map .integer).or (signedDecimal? cs))).getD .text

def wordMeaning (text : String) : Meaning :=
  if nullTexts.contains text then .null
  else if ["true", "True", "TRUE", "false", "False", "FALSE"].contains text then .truth
  else .text

def meaning (text : String) : Meaning :=
  match text.toList with
  | [] => .null
  | c :: _ =>
    if c = '.' then pointMeaning text
    else if Json.isDigit c ∨ c = '+' ∨ c = '-' then numberMeaning text
    else wordMeaning text

/-- What is meant as an unsigned 64-bit number.  A double counts by its whole part and is moved into the range from
below, and from above if it is the double nearest to the end of the range. -/
def Meaning.unsigned? : Meaning → Option UInt64
  | .integer value =>
    if 0 ≤ value ∧ value ≤ Text.maxUnsigned64 then some (UInt64.ofNat value.toNat) else none
  | .real true _ => some 0
  | .real false whole =>
    if whole ≤ Text.maxUnsigned64 + 1 then some (UInt64.ofNat (min whole Text.maxUnsigned64)) else none
  | .infinite true => some 0
  | _ => none

end TileSelect.Yaml
