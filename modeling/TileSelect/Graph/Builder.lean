import TileSelect.Graph.Basic
import TileSelect.Program.Basic

/-! # The graph of a program

Building goes through the declared inputs and then the instructions, in order.  An operand is a name that is
bound already; otherwise it becomes a leaf, unless leaves have to be declared or some instruction of the
program defines the name, now or later.  A destination is a new name, or, if that is allowed, one that was
defined in exactly the same way.  The first thing that goes wrong is the error. -/
namespace TileSelect

structure BuildOptions where
  /-- Only declared inputs may be leaves. -/
  strict : Bool := false
  /-- A value may be defined again in the same way. -/
  reuse : Bool := false

inductive BuildError where
  /-- An instruction uses a name that has no value there. -/
  | unknownValue (name : String) (index : Nat)
  /-- An instruction, or a declared input if there is no index, binds a name again. -/
  | alreadyDefined (name : String) (index : Option Nat)
  /-- An instruction whose opcode does not take two operands. -/
  | notBinary (name : String) (index : Nat) (op : Opcode)
  /-- The graph refused a node. -/
  | fault (fault : Fault)
  deriving DecidableEq

namespace BuildError

def message : BuildError → String
  | unknownValue name _ => "unknown value \"" ++ name ++ "\""
  | alreadyDefined name _ => "value \"" ++ name ++ "\" already defined"
  | notBinary name _ op =>
    "invalid instruction defining \"" ++ name ++ "\": opcode " ++ op.mnemonic ++
      " is not a binary operation"
  | fault f => f.message?.getD "index out of range"

/-- The instruction at fault. -/
def index? : BuildError → Option Nat
  | unknownValue _ index => some index
  | alreadyDefined _ index => index
  | notBinary _ index _ => some index
  | fault _ => none

end BuildError

namespace Program

def defines (program : Program) (name : String) : Bool :=
  program.instructions.any fun insn => insn.dst == name

end Program

namespace Graph

/-- A graph operation as a step of building. -/
def orFault {α : Type} (result : Except Fault α) : Except BuildError α :=
  result.mapError BuildError.fault

def declare (program : Program) (g : Graph) (name : String) : Except BuildError Graph :=
  if (g.lookup name).isSome || program.defines name then .error (.alreadyDefined name none)
  else orFault (g.leaf name) >>= fun added => .ok added.2

/-- The node of an operand, made a leaf if it may be one. -/
def resolve (program : Program) (options : BuildOptions) (index : Nat) (g : Graph) (name : String) :
    Except BuildError (NodeId × Graph) :=
  match g.lookup name with
  | some id => .ok (id, g)
  | none =>
    if program.defines name || options.strict then .error (.unknownValue name index)
    else orFault (g.leaf name)

def isApplication (node : Option Node) (op : Opcode) (lhs rhs : NodeId) : Bool :=
  match node with
  | some (.binary _ op' lhs' rhs') => op' == op && lhs' == lhs && rhs' == rhs
  | _ => false

def define (options : BuildOptions) (index : Nat) (g : Graph) (insn : Instruction)
    (lhs rhs : NodeId) : Except BuildError Graph :=
  match g.lookup insn.dst with
  | some id =>
    if options.reuse && isApplication (g.node? id) insn.op lhs rhs then .ok (g.withRoot id)
    else .error (.alreadyDefined insn.dst (some index))
  | none => orFault (g.binary insn.dst insn.op lhs rhs) >>= fun added => .ok added.2

def addInstruction (program : Program) (options : BuildOptions) (index : Nat) (g : Graph)
    (insn : Instruction) : Except BuildError Graph :=
  if !insn.op.isBinary then .error (.notBinary insn.dst index insn.op)
  else do
    let (lhs, g) ← resolve program options index g insn.lhs
    let (rhs, g) ← resolve program options index g insn.rhs
    define options index g insn lhs rhs

/-- Adds instructions, the first of which has the given index. -/
def addInstructions (program : Program) (options : BuildOptions) :
    Nat → Graph → List Instruction → Except BuildError Graph
  | _, g, [] => .ok g
  | index, g, insn :: insns => do
    let g ← addInstruction program options index g insn
    addInstructions program options (index + 1) g insns

def build (program : Program) (options : BuildOptions) : Except BuildError Graph := do
  let g ← program.inputs.foldlM (declare program) empty
  addInstructions program options 0 g program.instructions

inductive BuildEvent where
  /-- An undeclared name became a leaf. -/
  | introduced (name : String)
  /-- A value was defined again in the same way. -/
  | reused (name : String)
  deriving DecidableEq

def BuildEvent.message : BuildEvent → String
  | .introduced name => "introducing leaf " ++ name
  | .reused name => "reusing identical definition of " ++ name

def resolveEvents (program : Program) (options : BuildOptions) (g : Graph) (name : String) :
    List BuildEvent :=
  if (g.lookup name).isSome || program.defines name || options.strict then []
  else [.introduced name]

/-- Events of adding an instruction, up to the point where it fails if it does. -/
def instructionEvents (program : Program) (options : BuildOptions) (g : Graph)
    (insn : Instruction) : List BuildEvent :=
  if !insn.op.isBinary then []
  else
    resolveEvents program options g insn.lhs ++
      match resolve program options 0 g insn.lhs with
      | .error _ => []
      | .ok (lhs, g) =>
        resolveEvents program options g insn.rhs ++
          match resolve program options 0 g insn.rhs with
          | .error _ => []
          | .ok (rhs, g) =>
            match g.lookup insn.dst with
            | none => []
            | some id =>
              if options.reuse && isApplication (g.node? id) insn.op lhs rhs then
                [.reused insn.dst]
              else []

def instructionsEvents (program : Program) (options : BuildOptions) :
    Graph → List Instruction → List BuildEvent
  | _, [] => []
  | g, insn :: insns =>
    instructionEvents program options g insn ++
      match addInstruction program options 0 g insn with
      | .error _ => []
      | .ok g => instructionsEvents program options g insns

def buildEvents (program : Program) (options : BuildOptions) : List BuildEvent :=
  match program.inputs.foldlM (declare program) empty with
  | .error _ => []
  | .ok g => instructionsEvents program options g program.instructions

end Graph
end TileSelect
