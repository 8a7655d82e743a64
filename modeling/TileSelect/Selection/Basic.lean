import TileSelect.Catalog.Basic
import TileSelect.Cost
import TileSelect.Graph.Traversal

/-! # Selecting tiles

Nodes are visited operands first.  At each node every tile whose pattern matches is a candidate; its price is
its own cost plus the prices of the inputs at its boundary, which were all visited before.  The cheapest
candidate is selected, the earliest of the catalog among equals.  Selection fails at the first node that no
tile matches. -/
namespace TileSelect

/-- The tile selected for a node, its location and the price of the node.  The tile is held as it was when it was
selected; what becomes of a catalog that is changed afterwards is not followed here. -/
structure Annotation where
  node : NodeId
  tile : Tile
  loc : Loc
  cost : UInt64
  deriving DecidableEq

inductive SelectError where
  /-- No tile matches the node. -/
  | noCover (name : String) (op : Opcode)
  /-- A node was visited out of order or is not in the graph. -/
  | fault (fault : Fault)
  deriving DecidableEq

def SelectError.message : SelectError → String
  | .noCover name op => "no tile covers \"" ++ name ++ "\" (" ++ op.mnemonic ++ ")"
  | .fault f => f.message?.getD "index out of range"

/-- The annotations of a graph below a root, as far as they are made. -/
structure Selection where
  graph : Graph
  root : NodeId
  /-- The annotation of each node. -/
  memo : Array (Option Annotation)
  /-- The annotated nodes, in the order they were annotated. -/
  order : List NodeId

namespace Selection

def start (g : Graph) (root : NodeId) : Selection := ⟨g, root, Array.replicate g.size none, []⟩

def annotation? (s : Selection) (id : NodeId) : Option Annotation := s.memo[id]?.join

def lookup (s : Selection) (name : String) : Option Annotation :=
  (s.graph.lookup name).bind s.annotation?

/-- The annotations, in the order they were made. -/
def annotations (s : Selection) : List Annotation := s.order.filterMap s.annotation?

def nodeName (s : Selection) (id : NodeId) : String := ((s.graph.node? id).map Node.name).getD ""

/-- Records the annotation of a node that has none. -/
def annotate (s : Selection) (a : Annotation) : Except Fault Selection :=
  match s.memo[a.node]? with
  | none => .error .outOfRange
  | some (some _) => .error (.annotatedTwice (s.nodeName a.node))
  | some none =>
    .ok { s with memo := s.memo.modify a.node fun _ => some a, order := s.order ++ [a.node] }

/-- The price of a node that is an input of a match. -/
def price (s : Selection) (id : NodeId) : Except Fault UInt64 :=
  match s.annotation? id with
  | some a => .ok a.cost
  | none => .error (.operandPending (s.nodeName id))

def inputsPrice (s : Selection) (tile : Tile) (id : NodeId) : Except Fault UInt64 := do
  let b ← tile.pattern.boundary s.graph id
  let prices ← b.inputs.mapM s.price
  .ok (Cost.total prices)

def candidate (s : Selection) (id : NodeId) (tile : Tile) : Except Fault Annotation := do
  let inputs ← s.inputsPrice tile id
  .ok ⟨id, tile, tile.loc, Cost.add tile.cost inputs⟩

/-- The candidates at a node, in the order of the catalog. -/
def candidates (s : Selection) (catalog : Catalog) (id : NodeId) : Except Fault (List Annotation) :=
  catalog.tiles.filterMapM fun tile => do
    if ← tile.pattern.test s.graph id then some <$> s.candidate id tile else .ok none

/-- The first of the cheapest. -/
def cheapest? : List Annotation → Option Annotation
  | [] => none
  | a :: rest =>
    match cheapest? rest with
    | none => some a
    | some b => if b.cost < a.cost then some b else some a

def choose (s : Selection) (catalog : Catalog) (id : NodeId) : Except SelectError Annotation := do
  let node ← (s.graph.node id).mapError .fault
  let found ← (s.candidates catalog id).mapError .fault
  match cheapest? found with
  | some a => .ok a
  | none => .error (.noCover node.name node.opcode)

/-- Visits a node: selects its tile and records it. -/
def visit (catalog : Catalog) (s : Selection) (id : NodeId) : Except SelectError Selection := do
  let a ← s.choose catalog id
  (s.annotate a).mapError .fault

/-- Selects a tile for every node below a root. -/
def select (g : Graph) (root : NodeId) (catalog : Catalog) : Except SelectError Selection := do
  let order ← (g.postorderOnce root).mapError .fault
  order.foldlM (visit catalog) (start g root)

theorem cheapest?_eq_none_iff (found : List Annotation) : cheapest? found = none ↔ found = [] := by
  cases found with
  | nil => simp [cheapest?]
  | cons a rest =>
    simp only [cheapest?, reduceCtorEq, iff_false]
    split
    · simp
    · split <;> simp

end Selection
end TileSelect
