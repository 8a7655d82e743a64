import TileSelect.Text.Utf8

/-! # Encodings

A byte text is UTF-8 or, in either byte order, UTF-16; a byte order mark at its start tells which.  Characters are
taken from the front one by one, so that a text can be read in pieces that cut a character apart. -/
namespace TileSelect.Text

inductive Encoding where
  | utf8
  /-- UTF-16, with the low byte of each unit first or last. -/
  | utf16 (lowFirst : Bool)
  deriving DecidableEq

inductive Front where
  /-- A character, and the number of bytes it takes after the first. -/
  | char (c : Char) (more : Nat)
  /-- The beginning of a character that the text cuts off. -/
  | cut
  | invalid
  deriving DecidableEq

/-- The number of bytes that follow the first one of a UTF-8 sequence, by the leading bits of the first. -/
def announced? (lead : UInt8) : Option Nat :=
  let n := lead.toNat
  if n < 0x80 then some 0
  else if 0xC0 ≤ n ∧ n < 0xE0 then some 1
  else if 0xE0 ≤ n ∧ n < 0xF0 then some 2
  else if 0xF0 ≤ n ∧ n < 0xF8 then some 3
  else none

def frontUtf8 (lead : UInt8) (rest : List UInt8) : Front :=
  match announced? lead with
  | none => .invalid
  | some more =>
    if (rest.take more).length < more then .cut
    else
      match codePoint? lead rest with
      | some (code, used) => .char (Char.ofNat code) used
      | none => .invalid

def isHighSurrogate (unit : Nat) : Bool := 0xD800 ≤ unit && unit < 0xDC00

def isLowSurrogate (unit : Nat) : Bool := 0xDC00 ≤ unit && unit < 0xE000

def codeUnit (lowFirst : Bool) (a b : UInt8) : Nat :=
  if lowFirst then a.toNat + 256 * b.toNat else 256 * a.toNat + b.toNat

/-- The front of a UTF-16 text; the halves of a pair only stand together. -/
def frontUtf16 (lowFirst : Bool) : List UInt8 → Front
  | a :: b :: rest =>
    let unit := codeUnit lowFirst a b
    if isLowSurrogate unit then .invalid
    else if isHighSurrogate unit then
      match rest with
      | c :: d :: _ =>
        let second := codeUnit lowFirst c d
        if isLowSurrogate second then
          .char (Char.ofNat (0x10000 + unit % 1024 * 1024 + second % 1024)) 3
        else .invalid
      | _ => .cut
    else .char (Char.ofNat unit) 1
  | _ => .cut

/-- The front of a text, given its first byte. -/
def Encoding.front (encoding : Encoding) (lead : UInt8) (rest : List UInt8) : Front :=
  match encoding with
  | .utf8 => frontUtf8 lead rest
  | .utf16 lowFirst => frontUtf16 lowFirst (lead :: rest)

/-- The encoding that a byte order mark tells, and the length of the mark; without one it is UTF-8. -/
def Encoding.ofMark (bytes : List UInt8) : Encoding × Nat :=
  if bytes.take 2 = [0xFF, 0xFE] then (.utf16 true, 2)
  else if bytes.take 2 = [0xFE, 0xFF] then (.utf16 false, 2)
  else if bytes.take 3 = [0xEF, 0xBB, 0xBF] then (.utf8, 3)
  else (.utf8, 0)

end TileSelect.Text
