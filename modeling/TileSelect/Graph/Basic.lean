import TileSelect.Fault
import TileSelect.Opcode

/-! # Value graphs

A value graph is a table of named nodes, added one after another, beside the numbers that names are bound to.  A
node is a leaf or applies a binary opcode to two nodes that were there before it, so every path through operands
goes down the table; `operands_lt` records this, and recursion on the number of a node follows it.  The root is
the last binary node that was defined.  A graph is changed by requests, which answer a number or a fault and leave
a graph behind in both cases; `leaf` and `binary` are for callers that stop at a fault. -/
namespace TileSelect

abbrev NodeId := Nat

/-- A named value: from outside, or computed from two others. -/
inductive Node where
  | leaf (name : String)
  | binary (name : String) (op : Opcode) (lhs rhs : NodeId)
  deriving DecidableEq

namespace Node

def name : Node → String
  | leaf name => name
  | binary name _ _ _ => name

/-- What the node computes; a leaf refers to a value from outside. -/
def opcode : Node → Opcode
  | leaf _ => .ref
  | binary _ op _ _ => op

def operands : Node → List NodeId
  | leaf _ => []
  | binary _ _ lhs rhs => [lhs, rhs]

def isLeaf : Node → Bool
  | leaf _ => true
  | binary _ _ _ _ => false

theorem forall_operands_lt {name : String} {op : Opcode} {lhs rhs bound : NodeId}
    (h : lhs < bound ∧ rhs < bound) : ∀ operand ∈ (binary name op lhs rhs).operands, operand < bound := by
  simp only [operands, List.mem_cons, List.not_mem_nil, or_false]
  rintro operand (rfl | rfl)
  · exact h.1
  · exact h.2

end Node

/-- A node and the number it carries. -/
structure Vertex where
  id : NodeId
  node : Node
  deriving DecidableEq

/-- A table of nodes whose operands come before them. -/
structure Graph where
  vertices : Array Vertex
  /-- The numbers that names are bound to. -/
  bindings : String → Option NodeId
  root : Option NodeId
  /-- Operands are earlier nodes. -/
  operands_lt : ∀ (id : NodeId) (vertex : Vertex), vertices[id]? = some vertex →
    ∀ operand ∈ vertex.node.operands, operand < id

namespace Graph

def empty : Graph where
  vertices := #[]
  bindings _ := none
  root := none
  operands_lt := by simp

def nodes (g : Graph) : Array Node := g.vertices.map Vertex.node

def size (g : Graph) : Nat := g.vertices.size

def vertex? (g : Graph) (id : NodeId) : Option Vertex := g.vertices[id]?

def node? (g : Graph) (id : NodeId) : Option Node := (g.vertex? id).map Vertex.node

/-- The node at a place, with the number it carries. -/
def vertex (g : Graph) (id : NodeId) : Except Fault Vertex :=
  match g.vertex? id with
  | some vertex => .ok vertex
  | none => .error .outOfRange

def node (g : Graph) (id : NodeId) : Except Fault Node :=
  match g.node? id with
  | some node => .ok node
  | none => .error .outOfRange

/-- The first operand; a leaf has none. -/
def lhs (g : Graph) (id : NodeId) : Except Fault NodeId := do
  match ← g.node id with
  | .leaf _ => .error .outOfRange
  | .binary _ _ lhs _ => .ok lhs

def rhs (g : Graph) (id : NodeId) : Except Fault NodeId := do
  match ← g.node id with
  | .leaf _ => .error .outOfRange
  | .binary _ _ _ rhs => .ok rhs

def ids (g : Graph) : List NodeId := List.range g.size

def lookup (g : Graph) (name : String) : Option NodeId := g.bindings name

def names (g : Graph) (ids : List NodeId) : Except Fault (List String) :=
  ids.mapM fun id => (g.node id).map Node.name

/-- Puts a node whose operands are in the graph behind the others, under the next number, and binds its name to it,
whatever the name was bound to. -/
def push (g : Graph) (node : Node) (h : ∀ operand ∈ node.operands, operand < g.size) : Graph where
  vertices := g.vertices.push ⟨g.size, node⟩
  bindings name := if name = node.name then some g.size else g.bindings name
  root := g.root
  operands_lt := by
    intro id found hfound operand hoperand
    rw [Array.getElem?_push] at hfound
    split at hfound
    · next hid =>
      simp only [Option.some.injEq] at hfound
      subst hfound hid
      exact h operand hoperand
    · exact g.operands_lt id found hfound operand hoperand

def withRoot (g : Graph) (id : NodeId) : Graph := { g with root := some id }

/-- Adds a node whose operands are in the graph, unless its name is bound. -/
def add (g : Graph) (node : Node) (h : ∀ operand ∈ node.operands, operand < g.size) :
    Except Fault NodeId × Graph :=
  match g.lookup node.name with
  | some _ => (.error (.nameBound node.name), g)
  | none => (.ok g.size, g.push node h)

def addLeaf (g : Graph) (name : String) : Except Fault NodeId × Graph :=
  g.add (.leaf name) (by simp [Node.operands])

/-- Asks for a binary node, which becomes the root once it is there. -/
def addBinary (g : Graph) (name : String) (op : Opcode) (lhs rhs : NodeId) :
    Except Fault NodeId × Graph :=
  if !op.isBinary then (.error (.notBinary op.mnemonic), g)
  else if h : lhs < g.size ∧ rhs < g.size then
    match g.add (.binary name op lhs rhs) (Node.forall_operands_lt h) with
    | (.ok id, g) => (.ok id, g.withRoot id)
    | (.error fault, g) => (.error fault, g)
  else (.error .unknownOperand, g)

/-- The answer to a request with the graph it leaves behind, for callers that stop at a fault. -/
def answered : Except Fault NodeId × Graph → Except Fault (NodeId × Graph)
  | (.ok id, g) => .ok (id, g)
  | (.error fault, _) => .error fault

def leaf (g : Graph) (name : String) : Except Fault (NodeId × Graph) := answered (g.addLeaf name)

def binary (g : Graph) (name : String) (op : Opcode) (lhs rhs : NodeId) :
    Except Fault (NodeId × Graph) :=
  answered (g.addBinary name op lhs rhs)

theorem node?_eq_some_iff {g : Graph} {id : NodeId} {node : Node} :
    g.node? id = some node ↔ ∃ vertex, g.vertex? id = some vertex ∧ vertex.node = node :=
  Option.map_eq_some_iff

theorem operands_lt_of_node? {g : Graph} {id : NodeId} {node : Node} (h : g.node? id = some node) :
    ∀ operand ∈ node.operands, operand < id := by
  obtain ⟨vertex, hvertex, rfl⟩ := node?_eq_some_iff.mp h
  exact g.operands_lt id vertex hvertex

/-- The operands of a binary node come before it. -/
theorem lt_of_node? {g : Graph} {id lhs rhs : NodeId} {name : String} {op : Opcode}
    (h : g.node? id = some (.binary name op lhs rhs)) : lhs < id ∧ rhs < id :=
  ⟨operands_lt_of_node? h lhs (by simp [Node.operands]),
    operands_lt_of_node? h rhs (by simp [Node.operands])⟩

end Graph
end TileSelect
