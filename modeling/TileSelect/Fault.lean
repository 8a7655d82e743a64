/-! # Broken preconditions

Every operation of the library that demands something of its caller answers in `Except Fault`.  A fault
is never an answer about the input text, which has its own error types; it names the demand that was
not met, and `Fault.message?` gives its wording.  An index outside a table has no wording of its own. -/
namespace TileSelect

/-- What a caller got wrong. -/
inductive Fault where
  /-- A position outside the table, list or text it was meant for. -/
  | outOfRange
  /-- A span that would end before it starts. -/
  | invalidSpan
  /-- A token was demanded where no rule accepts. -/
  | noToken
  /-- A span was recorded twice for one key. -/
  | spanTaken (key : String)
  /-- No span was recorded for the key. -/
  | spanMissing (key : String)
  /-- The top of an empty stack was looked at. -/
  | peekEmpty
  /-- The top of an empty stack was removed. -/
  | popEmpty
  /-- A table row of the wrong length. -/
  | columnCount
  /-- A graph name was bound twice. -/
  | nameBound (name : String)
  /-- An opcode without two operands was given two operands. -/
  | notBinary (opcode : String)
  /-- An operand that is no node of the graph. -/
  | unknownOperand
  /-- A resource code that stands for no resource. -/
  | unknownResource (code : Nat)
  /-- A node was priced before one of its inputs. -/
  | operandPending (name : String)
  /-- A node was given two annotations. -/
  | annotatedTwice (name : String)
  deriving DecidableEq, Repr

def Fault.message? : Fault → Option String
  | .outOfRange => none
  | .invalidSpan => some "invalid span"
  | .noToken => some "no token available"
  | .spanTaken key => some ("source map key already exists: " ++ key)
  | .spanMissing key => some ("invalid source map key: " ++ key)
  | .peekEmpty => some "peek on empty stack"
  | .popEmpty => some "cannot pop from empty stack"
  | .columnCount => some "incorrect number of columns"
  | .nameBound name => some ("name " ++ name ++ " already bound")
  | .notBinary opcode => some ("opcode " ++ opcode ++ " is not binary")
  | .unknownOperand => some "unknown operand"
  | .unknownResource code => some ("unknown resource " ++ toString code)
  | .operandPending name => some ("operand " ++ name ++ " selected after its consumer")
  | .annotatedTwice name => some ("node " ++ name ++ " annotated twice")

end TileSelect
