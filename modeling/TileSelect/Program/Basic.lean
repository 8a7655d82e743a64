import TileSelect.Opcode

/-! # Programs

A program declares inputs and defines values one after another, each from two earlier ones.  Names are not
checked here: a program may define a name twice or use names nobody defines, and its opcodes need not be
binary. -/
namespace TileSelect

/-- The definition of a value: `dst = op lhs, rhs`. -/
structure Instruction where
  op : Opcode
  dst : String
  lhs : String
  rhs : String
  deriving DecidableEq

def Instruction.chars (insn : Instruction) : List Char :=
  insn.dst.toList ++ " = ".toList ++ insn.op.mnemonic.toList ++ " ".toList ++ insn.lhs.toList ++
    ", ".toList ++ insn.rhs.toList

/-- Declared inputs and instructions, in program order. -/
structure Program where
  inputs : List String := []
  instructions : List Instruction := []
  deriving DecidableEq

namespace Program

/-- The index of the last instruction that defines a name. -/
def definition? (program : Program) (name : String) : Option Nat :=
  program.instructions.zipIdx.foldl
    (fun found entry => if entry.1.dst = name then some entry.2 else found) none

/-- Names with a comma and a space between them. -/
def joinNames : List String → List Char
  | [] => []
  | [name] => name.toList
  | name :: next :: names => name.toList ++ ", ".toList ++ joinNames (next :: names)

/-- The characters of a program: a declaration of its inputs, if it has any, then a line for each
instruction. -/
def chars (program : Program) : List Char :=
  (if program.inputs.isEmpty then [] else "input ".toList ++ joinNames program.inputs ++ ['\n']) ++
    program.instructions.flatMap fun insn => insn.chars ++ ['\n']

def render (program : Program) : String := String.ofList program.chars

end Program
end TileSelect
