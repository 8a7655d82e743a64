/-! # UTF-8

Bytes become characters one well-formed sequence at a time.  A byte that starts no well-formed sequence
becomes one replacement character and reading goes on with the next byte, so an overlong form, an encoded
surrogate or a cut-off sequence gives one replacement character for each of its bytes. -/
namespace TileSelect.Text

/-- What an unreadable byte decodes to. -/
def replacement : Char := '\uFFFD'

/-- The six payload bits of a continuation byte between `low` and `high`. -/
def payload? (low high : Nat) (b : UInt8) : Option Nat :=
  if low ≤ b.toNat ∧ b.toNat ≤ high then some (b.toNat % 64) else none

/-- The code point that `lead` starts and the number of bytes it takes after `lead`.  The range of the
second byte excludes overlong forms, surrogates and code points past the last one. -/
def codePoint? (lead : UInt8) (rest : List UInt8) : Option (Nat × Nat) :=
  let a := lead.toNat
  if a < 0x80 then some (a, 0)
  else if 0xC2 ≤ a ∧ a ≤ 0xDF then
    match rest with
    | b :: _ => do
      let x ← payload? 0x80 0xBF b
      some (a % 32 * 64 + x, 1)
    | [] => none
  else if 0xE0 ≤ a ∧ a ≤ 0xEF then
    match rest with
    | b :: c :: _ => do
      let x ← payload? (if a = 0xE0 then 0xA0 else 0x80) (if a = 0xED then 0x9F else 0xBF) b
      let y ← payload? 0x80 0xBF c
      some (a % 16 * 4096 + x * 64 + y, 2)
    | _ => none
  else if 0xF0 ≤ a ∧ a ≤ 0xF4 then
    match rest with
    | b :: c :: d :: _ => do
      let x ← payload? (if a = 0xF0 then 0x90 else 0x80) (if a = 0xF4 then 0x8F else 0xBF) b
      let y ← payload? 0x80 0xBF c
      let z ← payload? 0x80 0xBF d
      some (a % 8 * 262144 + x * 4096 + y * 64 + z, 3)
    | _ => none
  else none

/-- The characters of a byte text, unreadable bytes replaced one by one. -/
def decode : List UInt8 → List Char
  | [] => []
  | b :: rest =>
    match codePoint? b rest with
    | some (code, used) => Char.ofNat code :: decode (rest.drop used)
    | none => replacement :: decode rest
termination_by bytes => bytes.length
decreasing_by
  · simp only [List.length_drop, List.length_cons]; omega
  · simp

def encode (cs : List Char) : List UInt8 := cs.flatMap String.utf8EncodeChar

@[simp] theorem decode_nil : decode [] = [] := by rw [decode]

end TileSelect.Text
