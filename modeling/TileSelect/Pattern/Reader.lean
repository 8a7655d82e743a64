import TileSelect.Pattern.Basic
import TileSelect.SExpr.Basic

/-! # Reading patterns

A pattern is written `op`, `(op)` or `(op lhs rhs)`, where an operand is a pattern or `_` for anything.  What
is wrong with another term is blamed on the smallest term it is wrong with. -/
namespace TileSelect.Pattern

inductive ReadError where
  /-- The term that asks for nothing. -/
  | unconstrained
  /-- A list where an opcode belongs. -/
  | expectedOpcode
  /-- A symbol that names no opcode. -/
  | unknownOpcode
  /-- A list of a length that no pattern has. -/
  | wrongLength
  deriving DecidableEq, Repr

def ReadError.message : ReadError → String
  | .unconstrained => "unconstrained pattern not permitted here"
  | .expectedOpcode => "expected opcode"
  | .unknownOpcode => "unknown opcode"
  | .wrongLength => "expected (op) or (op lhs rhs)"

structure Blame (μ : Type) where
  term : SExpr μ
  cause : ReadError

def Blame.message {μ : Type} (blame : Blame μ) : String :=
  blame.cause.message ++ " (" ++ blame.term.render ++ ")"

variable {μ : Type}

/-- The symbol that asks for nothing. -/
def wildcard : String := "_"

def readOpcode (term : SExpr μ) : Except (Blame μ) Opcode :=
  match term.symbol? with
  | none => .error ⟨term, .expectedOpcode⟩
  | some name =>
    match Opcode.parse? name with
    | some op => .ok op
    | none => .error ⟨term, .unknownOpcode⟩

def readShape : SExpr μ → Except (Blame μ) Shape
  | .symbol mark text =>
    if text = wildcard then .ok .free
    else (readOpcode (SExpr.symbol mark text)).map fun op => .node op .free .free
  | .list _ [head] => (readOpcode head).map fun op => .node op .free .free
  | .list _ [head, left, right] => do
    let op ← readOpcode head
    let left ← readShape left
    let right ← readShape right
    .ok (.node op left right)
  | .list mark items => .error ⟨.list mark items, .wrongLength⟩

def read (term : SExpr μ) : Except (Blame μ) Pattern := do
  match ← readShape term with
  | .free => .error ⟨term, .unconstrained⟩
  | .node op left right => .ok ⟨op, left, right⟩

end TileSelect.Pattern
