import TileSelect.Graph.Basic

/-! # Patterns

A pattern asks for an opcode and, for either operand, nothing or another pattern.  `Shape` is what may be asked
of an operand; a pattern is a shape that asks for something.  Where a pattern matches it splits the nodes below
into the inputs at its boundary and the interior nodes it takes in.  A leaf pattern stops at its node and leaves
all its operands, of which there may be none, at the boundary. -/
namespace TileSelect

/-- What is asked of a value: nothing, or an opcode and something of each operand. -/
inductive Shape where
  | free
  | node (op : Opcode) (left right : Shape)
  deriving DecidableEq

/-- An opcode, and what is asked of its two operands. -/
structure Pattern where
  op : Opcode
  left : Shape
  right : Shape
  deriving DecidableEq

/-- The nodes around a match: those left to others and those taken in, both from left to right. -/
structure Boundary where
  inputs : List NodeId
  interior : List NodeId
  deriving DecidableEq

namespace Shape

def isFree : Shape → Bool
  | free => true
  | node _ _ _ => false

/-- Does a node of a graph have the shape?  A node without operands has only shapes that ask nothing of
them, and what is not in the graph has none. -/
def accepts (g : Graph) : Shape → NodeId → Bool
  | free, _ => true
  | node op left right, id =>
    match g.node? id with
    | none => false
    | some (.leaf _) => op.accepts .ref && left.isFree && right.isFree
    | some (.binary _ op' lhs rhs) =>
      op.accepts op' && left.accepts g lhs && right.accepts g rhs

/-- Finds out whether a node has the shape, from the node down and from left to right, as far as it takes. -/
def test (g : Graph) : Shape → NodeId → Except Fault Bool
  | free, _ => .ok true
  | node op left right, id => do
    match ← g.node id with
    | .leaf _ => .ok (op.accepts .ref && left.isFree && right.isFree)
    | .binary _ op' lhs rhs =>
      if !op.accepts op' then .ok false
      else if !(← left.test g lhs) then .ok false
      else right.test g rhs

/-- The number of opcodes on the longest way down. -/
def depth : Shape → Nat
  | free => 0
  | node _ left right => max left.depth right.depth + 1

/-- The operand itself, if the shape takes it in. -/
def taken (shape : Shape) (operand : NodeId) : List NodeId :=
  if shape.isFree then [] else [operand]

/-- The boundary of a shape at a node, which must have the operands that the shape asks about. -/
def boundary (g : Graph) : Shape → NodeId → Except Fault Boundary
  | free, id => .ok ⟨[id], []⟩
  | node _ left right, id =>
    match g.node? id with
    | none => .error .outOfRange
    | some (.leaf _) => if left.isFree && right.isFree then .ok ⟨[], []⟩ else .error .outOfRange
    | some (.binary _ _ lhs rhs) => do
      let l ← left.boundary g lhs
      let r ← right.boundary g rhs
      .ok ⟨l.inputs ++ r.inputs, left.taken lhs ++ l.interior ++ (right.taken rhs ++ r.interior)⟩

/-- The characters of a shape below another: a bare opcode if nothing is asked of the operands. -/
def chars : Shape → List Char
  | free => ['_']
  | node op left right =>
    if left.isFree && right.isFree then op.mnemonic.toList
    else '(' :: op.mnemonic.toList ++ ' ' :: left.chars ++ ' ' :: right.chars ++ [')']

end Shape

namespace Pattern

/-- A pattern that asks nothing of the operands. -/
def leaf (op : Opcode) : Pattern := ⟨op, .free, .free⟩

def shape (p : Pattern) : Shape := .node p.op p.left p.right

/-- Is nothing asked of the operands? -/
def isLeaf (p : Pattern) : Bool := p.left.isFree && p.right.isFree

def accepts (p : Pattern) (g : Graph) (id : NodeId) : Bool := p.shape.accepts g id

def test (p : Pattern) (g : Graph) (id : NodeId) : Except Fault Bool := p.shape.test g id

def boundary (p : Pattern) (g : Graph) (id : NodeId) : Except Fault Boundary := p.shape.boundary g id

def depth (p : Pattern) : Nat := p.shape.depth

/-- The characters of a pattern: always between parentheses. -/
def chars (p : Pattern) : List Char :=
  if p.isLeaf then '(' :: p.op.mnemonic.toList ++ [')'] else p.shape.chars

def render (p : Pattern) : String := String.ofList p.chars

end Pattern

/-- A node takes the inputs of its operands over, which come before it. -/
theorem Shape.lt_of_mem_boundary_node {g : Graph} {op : Opcode} {left right : Shape} {id : NodeId}
    {b : Boundary} (h : (node op left right).boundary g id = .ok b)
    (hleft : ∀ {operand l}, left.boundary g operand = .ok l → ∀ input ∈ l.inputs, input ≤ operand)
    (hright : ∀ {operand r}, right.boundary g operand = .ok r → ∀ input ∈ r.inputs, input ≤ operand) :
    ∀ input ∈ b.inputs, input < id := by
  intro input hinput
  simp only [boundary, bind, Except.bind] at h
  split at h
  · simp at h
  · split at h
    · simp only [Except.ok.injEq] at h
      subst h
      simp at hinput
    · simp at h
  · next name op' lhs rhs hnode =>
    obtain ⟨hl, hr⟩ := Graph.lt_of_node? hnode
    split at h
    · simp at h
    · next l hl' =>
      split at h
      · simp at h
      · next r hr' =>
        simp only [Except.ok.injEq] at h
        subst h
        rcases List.mem_append.1 hinput with hm | hm
        · exact Nat.lt_of_le_of_lt (hleft hl' input hm) hl
        · exact Nat.lt_of_le_of_lt (hright hr' input hm) hr

/-- The inputs of a shape are the node itself or come before it. -/
theorem Shape.le_of_mem_boundary {g : Graph} {shape : Shape} {id : NodeId} {b : Boundary}
    (h : shape.boundary g id = .ok b) : ∀ input ∈ b.inputs, input ≤ id := by
  induction shape generalizing id b with
  | free =>
    simp only [boundary, Except.ok.injEq] at h
    subst h
    simp
  | node op left right ihl ihr =>
    intro input hinput
    exact Nat.le_of_lt (lt_of_mem_boundary_node h ihl ihr input hinput)

/-- The inputs of a match come before the node it is at. -/
theorem Pattern.lt_of_mem_boundary {p : Pattern} {g : Graph} {id : NodeId} {b : Boundary}
    (h : p.boundary g id = .ok b) : ∀ input ∈ b.inputs, input < id :=
  Shape.lt_of_mem_boundary_node h Shape.le_of_mem_boundary Shape.le_of_mem_boundary

end TileSelect
