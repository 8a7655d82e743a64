/-! # Opcodes

An opcode is one byte.  Five codes have a meaning: a reference to a value from outside, three binary
operations, and the wildcard of patterns; the other 251 are reserved.  `Opcode.ofCode` and `Opcode.code` are
inverse to each other. -/
namespace TileSelect

inductive Opcode where
  /-- A value from outside the program. -/
  | ref
  | add
  | mul
  | sub
  /-- Matches every opcode. -/
  | any
  /-- Codes from five on, which mean nothing. -/
  | reserved (extra : Fin 251)
  deriving DecidableEq, Repr

namespace Opcode

def code : Opcode → Nat
  | ref => 0
  | add => 1
  | mul => 2
  | sub => 3
  | any => 4
  | reserved extra => extra.val + 5

def ofCode (code : UInt8) : Opcode :=
  match code.toNat with
  | 0 => ref
  | 1 => add
  | 2 => mul
  | 3 => sub
  | 4 => any
  | n + 5 => if h : n < 251 then reserved ⟨n, h⟩ else any

theorem code_ofCode (c : UInt8) : (ofCode c).code = c.toNat := by
  have hc : c.toNat < 256 := c.toNat_lt
  unfold ofCode
  split <;> simp_all only [code]
  next n hn => rw [dif_pos (by omega)]

/-- The opcodes that nodes of a graph may have. -/
def all : List Opcode := [ref, add, mul, sub]

/-- Does one opcode stand for the other?  The wildcard stands for all and all stand for it. -/
def accepts (pattern op : Opcode) : Bool :=
  pattern == any || op == any || pattern == op

def isBinary : Opcode → Bool
  | add | mul | sub => true
  | _ => false

def mnemonic : Opcode → String
  | ref => "ref"
  | add => "add"
  | mul => "mul"
  | sub => "sub"
  | any => "*"
  | reserved extra => "opcode(" ++ toString (extra.val + 5) ++ ")"

/-- The opcode with the given name; the wildcard has two. -/
def parse? (name : String) : Option Opcode :=
  if name = "ref" then some ref
  else if name = "add" then some add
  else if name = "mul" then some mul
  else if name = "sub" then some sub
  else if name = "any" ∨ name = "*" then some any
  else none

/-- Is the opcode one of the five with a meaning? -/
def isNamed : Opcode → Bool
  | reserved _ => false
  | _ => true

/-- Named opcodes read back. -/
theorem parse?_mnemonic {op : Opcode} (h : op.isNamed = true) : parse? op.mnemonic = some op := by
  cases op <;> first | rfl | simp [isNamed] at h

end Opcode
end TileSelect
