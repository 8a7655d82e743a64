import TileSelect.Json.Basic
import TileSelect.Text.Decimal

/-! # Reading JSON

A text is cut into tokens, which are then put together by a machine with a stack of open containers and a
phase that says what may come next.  The whole text has to be one value.  A code unit escape that is half of a
surrogate pair without its other half reads as a replacement character. -/
namespace TileSelect.Json

/-- A piece of a JSON text: punctuation or a value that is no container. -/
inductive Token where
  | openArray
  | closeArray
  | openObject
  | closeObject
  | comma
  | colon
  | scalar (value : Json)

def hexDigit? (c : Char) : Option Nat :=
  let n := c.toNat
  if 48 ≤ n ∧ n ≤ 57 then some (n - 48)
  else if 97 ≤ n ∧ n ≤ 102 then some (n - 87)
  else if 65 ≤ n ∧ n ≤ 70 then some (n - 55)
  else none

def codeUnit? (a b c d : Char) : Option Nat := do
  let a ← hexDigit? a
  let b ← hexDigit? b
  let c ← hexDigit? c
  let d ← hexDigit? d
  some (a * 4096 + b * 256 + c * 16 + d)

/-- What a one-letter escape stands for. -/
def escape? (c : Char) : Option Nat :=
  if c = '"' ∨ c = '\\' ∨ c = '/' then some c.toNat
  else if c = 'b' then some 8
  else if c = 'f' then some 12
  else if c = 'n' then some 10
  else if c = 'r' then some 13
  else if c = 't' then some 9
  else none

/-- The code units of a string up to its closing quote, and what follows it. -/
def stringUnits : List Char → Option (List Nat × List Char)
  | [] => none
  | '"' :: rest => some ([], rest)
  | '\\' :: 'u' :: a :: b :: c :: d :: rest => do
    let unit ← codeUnit? a b c d
    let (units, rest) ← stringUnits rest
    some (unit :: units, rest)
  | '\\' :: c :: rest => do
    let unit ← escape? c
    let (units, rest) ← stringUnits rest
    some (unit :: units, rest)
  | c :: rest =>
    if c.toNat < 0x20 then none
    else do
      let (units, rest) ← stringUnits rest
      some (c.toNat :: units, rest)

theorem stringUnits_length {cs rest : List Char} {units : List Nat}
    (h : stringUnits cs = some (units, rest)) : rest.length < cs.length := by
  fun_induction stringUnits cs generalizing units rest with
  | case1 => simp at h
  | case2 tail =>
    simp only [Option.some.injEq, Prod.mk.injEq] at h
    simp [h.2]
  | case3 a b c d tail ih =>
    simp only [bind, Option.bind_eq_some_iff, Prod.exists] at h
    obtain ⟨_, _, us, r, hr, hlast⟩ := h
    simp only [Option.some.injEq, Prod.mk.injEq] at hlast
    have := ih hr
    rw [hlast.2] at this
    simp only [List.length_cons]
    omega
  | case4 c tail _ ih =>
    simp only [bind, Option.bind_eq_some_iff, Prod.exists] at h
    obtain ⟨_, _, us, r, hr, hlast⟩ := h
    simp only [Option.some.injEq, Prod.mk.injEq] at hlast
    have := ih hr
    rw [hlast.2] at this
    simp only [List.length_cons]
    omega
  | case5 => simp at h
  | case6 c tail _ _ _ _ ih =>
    simp only [bind, Option.bind_eq_some_iff, Prod.exists] at h
    obtain ⟨us, r, hr, hlast⟩ := h
    simp only [Option.some.injEq, Prod.mk.injEq] at hlast
    have := ih hr
    rw [hlast.2] at this
    simp only [List.length_cons]
    omega

/-- Half of a surrogate pair. -/
def isSurrogate (n : Nat) : Bool := 0xD800 ≤ n && n ≤ 0xDFFF

/-- The characters of code units, surrogate pairs joined. -/
def unitChars : List Nat → List Char
  | [] => []
  | high :: low :: rest =>
    if 0xD800 ≤ high ∧ high ≤ 0xDBFF ∧ 0xDC00 ≤ low ∧ low ≤ 0xDFFF then
      Char.ofNat (0x10000 + (high - 0xD800) * 1024 + (low - 0xDC00)) :: unitChars rest
    else
      (if isSurrogate high then '\uFFFD' else Char.ofNat high) :: unitChars (low :: rest)
  | [unit] => [if isSurrogate unit then '\uFFFD' else Char.ofNat unit]

def isSpace (c : Char) : Bool := c == ' ' || c == '\t' || c == '\n' || c == '\r'

def isNumberChar (c : Char) : Bool :=
  (Text.digit? c).isSome || c == '-' || c == '+' || c == '.' || c == 'e' || c == 'E'

def isDigit (c : Char) : Bool := (Text.digit? c).isSome

def isDigits (cs : List Char) : Bool := !cs.isEmpty && cs.all isDigit

/-- The exponent of a number, sign included. -/
def isExponent : List Char → Bool
  | '+' :: cs => isDigits cs
  | '-' :: cs => isDigits cs
  | cs => isDigits cs

/-- What may follow the whole part of a number. -/
def isNumberTail : List Char → Bool
  | [] => true
  | '.' :: cs =>
    !(cs.takeWhile isDigit).isEmpty &&
      match cs.dropWhile isDigit with
      | [] => true
      | e :: cs => (e == 'e' || e == 'E') && isExponent cs
  | e :: cs => (e == 'e' || e == 'E') && isExponent cs

/-- A number without its sign: no leading zeros. -/
def isUnsignedNumber : List Char → Bool
  | '0' :: cs => isNumberTail cs
  | cs => !(cs.takeWhile isDigit).isEmpty && isNumberTail (cs.dropWhile isDigit)

def isNumber : List Char → Bool
  | '-' :: cs => isUnsignedNumber cs
  | cs => isUnsignedNumber cs

def isLetter (c : Char) : Bool := 97 ≤ c.toNat && c.toNat ≤ 122

def word? (cs : List Char) : Option Json :=
  if cs = "null".toList then some .null
  else if cs = "true".toList then some (.bool true)
  else if cs = "false".toList then some (.bool false)
  else none

def punctuation? (c : Char) : Option Token :=
  if c = '[' then some .openArray
  else if c = ']' then some .closeArray
  else if c = '\x7b' then some .openObject
  else if c = '\x7d' then some .closeObject
  else if c = ',' then some .comma
  else if c = ':' then some .colon
  else none

def tokens (cs : List Char) : Option (List Token) :=
  match cs with
  | [] => some []
  | c :: rest =>
    if isSpace c then tokens rest
    else
      match punctuation? c with
      | some token => (tokens rest).map (token :: ·)
      | none =>
        if c = '"' then
          match _hunits : stringUnits rest with
          | none => none
          | some (units, rest) =>
            (tokens rest).map (.scalar (.string (String.ofList (unitChars units))) :: ·)
        else if isLetter c then
          match word? (c :: rest.takeWhile isLetter) with
          | none => none
          | some value => (tokens (rest.dropWhile isLetter)).map (.scalar value :: ·)
        else if isNumberChar c then
          let literal := c :: rest.takeWhile isNumberChar
          if isNumber literal then
            (tokens (rest.dropWhile isNumberChar)).map (.scalar (.number literal) :: ·)
          else none
        else none
termination_by cs.length
decreasing_by
  · simp
  · simp
  · exact Nat.lt_succ_of_lt (stringUnits_length _hunits)
  · exact Nat.lt_succ_of_le (List.dropWhile_suffix _).length_le
  · exact Nat.lt_succ_of_le (List.dropWhile_suffix _).length_le

/-- An open container: its contents so far and, in an object, the key of the value being read. -/
inductive Container where
  | array (items : List Json)
  | object (members : List (String × Json)) (key : String)

inductive Phase where
  /-- A value. -/
  | value
  /-- A value, or the end of the array just opened. -/
  | firstItem
  /-- A key, or the end of the object just opened. -/
  | firstKey
  /-- A key. -/
  | key
  /-- The colon after a key. -/
  | colon
  /-- A comma, or the end of the container. -/
  | next
  /-- Nothing: the value is complete. -/
  | done (value : Json)

structure Machine where
  stack : List Container := []
  phase : Phase := .value

namespace Machine

/-- Puts a complete value where it belongs. -/
def complete (stack : List Container) (value : Json) : Machine :=
  match stack with
  | [] => ⟨[], .done value⟩
  | .array items :: stack => ⟨.array (items ++ [value]) :: stack, .next⟩
  | .object members key :: stack => ⟨.object (members ++ [(key, value)]) key :: stack, .next⟩

def readValue (stack : List Container) : Token → Option Machine
  | .openArray => some ⟨.array [] :: stack, .firstItem⟩
  | .openObject => some ⟨.object [] "" :: stack, .firstKey⟩
  | .scalar value => some (complete stack value)
  | _ => none

def readKey (stack : List Container) : Token → Option Machine
  | .scalar (.string key) =>
    match stack with
    | .object members _ :: stack => some ⟨.object members key :: stack, .colon⟩
    | _ => none
  | _ => none

def step (m : Machine) (token : Token) : Option Machine :=
  match m.phase with
  | .value => readValue m.stack token
  | .firstItem =>
    match token, m.stack with
    | .closeArray, .array items :: stack => some (complete stack (.array items))
    | token, stack => readValue stack token
  | .firstKey =>
    match token, m.stack with
    | .closeObject, .object members _ :: stack => some (complete stack (.object members))
    | token, stack => readKey stack token
  | .key => readKey m.stack token
  | .colon =>
    match token with
    | .colon => some { m with phase := .value }
    | _ => none
  | .next =>
    match token, m.stack with
    | .comma, .array _ :: _ => some { m with phase := .value }
    | .comma, .object _ _ :: _ => some { m with phase := .key }
    | .closeArray, .array items :: stack => some (complete stack (.array items))
    | .closeObject, .object members _ :: stack => some (complete stack (.object members))
    | _, _ => none
  | .done _ => none

def result? (m : Machine) : Option Json :=
  match m.phase with
  | .done value => some value
  | _ => none

end Machine

def parse? (cs : List Char) : Option Json := do
  let tokens ← tokens cs
  let final ← tokens.foldlM Machine.step {}
  final.result?

end TileSelect.Json
