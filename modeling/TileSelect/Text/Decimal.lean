/-! # Decimal numerals

Reading a decimal numeral under a limit.  Digits are taken from the left, and the first thing that goes wrong
is what is reported: a character that is no digit, or a value past the limit. -/
namespace TileSelect.Text

inductive NumeralError where
  /-- Not a numeral at all. -/
  | malformed
  /-- A numeral past the limit. -/
  | tooLarge
  deriving DecidableEq, Repr

def digit? (c : Char) : Option Nat :=
  if 48 ≤ c.toNat ∧ c.toNat ≤ 57 then some (c.toNat - 48) else none

def continueNumeral (limit : Nat) : Nat → List Char → Except NumeralError Nat
  | n, [] => .ok n
  | n, c :: cs =>
    match digit? c with
    | none => .error .malformed
    | some d => if limit < n * 10 + d then .error .tooLarge else continueNumeral limit (n * 10 + d) cs

/-- The value of a non-empty run of digits, at most `limit`. -/
def readDigits (limit : Nat) : List Char → Except NumeralError Nat
  | [] => .error .malformed
  | c :: cs => continueNumeral limit 0 (c :: cs)

/-- An unsigned numeral, at most `limit`; no sign is allowed. -/
def readUnsigned (limit : Nat) (s : String) : Except NumeralError Nat :=
  readDigits limit s.toList

def maxUnsigned32 : Nat := 0xFFFFFFFF

def maxUnsigned64 : Nat := 0xFFFFFFFFFFFFFFFF

def signedBound64 : Nat := 0x8000000000000000

/-- A numeral with an optional sign, in the range of 64-bit signed integers. -/
def readSigned (s : String) : Except NumeralError Int :=
  match s.toList with
  | '-' :: cs => do
    let n ← readDigits maxUnsigned64 cs
    if signedBound64 < n then .error .tooLarge else .ok (-(n : Int))
  | '+' :: cs => do
    let n ← readDigits maxUnsigned64 cs
    if signedBound64 ≤ n then .error .tooLarge else .ok (n : Int)
  | cs => do
    let n ← readDigits maxUnsigned64 cs
    if signedBound64 ≤ n then .error .tooLarge else .ok (n : Int)

@[simp] theorem readDigits_nil (limit : Nat) : readDigits limit [] = .error .malformed := rfl

end TileSelect.Text
