import TileSelect.Selection.Cover
import TileSelect.Terminal.Table

/-! # Reports

A selection is printed as a table of its annotations, as a table of its cover with the total, or as a directed
graph in the DOT language.  A catalog is printed as a table of its tiles.  Locations are coloured by resource. -/
namespace TileSelect.Report

open Terminal

def locColour : Loc → Escape
  | .resource .dsp => Escape.plain.foreground green
  | .resource .lut => Escape.plain.foreground cyan
  | _ => Escape.plain.foreground yellow

/-- A row of a report and the location to colour in it. -/
structure Row where
  cells : List String
  loc : Loc

def table (heading : List String) (locColumn : Nat) (rows : List Row) (ansi : Bool) :
    Except Fault String := do
  let (_, headed) ← (Table.ofColumns heading.length).addRow heading
  let full ← rows.foldlM (fun table row => do
    let (index, table) ← table.addRow row.cells
    table.decorate locColumn index (locColour row.loc)) headed
  (full.useEscapes ansi).render

def nameList (g : Graph) (ids : List NodeId) : Except Fault String := do
  let names ← g.names ids
  .ok (", ".intercalate names)

def annotationRow (g : Graph) (a : Annotation) : Except Fault Row := do
  let node ← g.node a.node
  let operands ← nameList g node.operands
  .ok ⟨[node.name, node.opcode.mnemonic, operands, a.tile.name, a.loc.name, toString a.cost], a.loc⟩

def annotations (s : Selection) (ansi : Bool) : Except Fault String := do
  let rows ← s.annotations.mapM (annotationRow s.graph)
  table ["name", "op", "operands", "tile", "loc", "cost"] 4 rows ansi

def instanceRow (g : Graph) (i : Instance) : Except Fault Row := do
  let node ← g.node i.node
  let inputs ← nameList g i.inputs
  let covered ← nameList g i.covered
  .ok ⟨[node.name, i.tile.name, i.tile.loc.name, inputs, covered], i.tile.loc⟩

/-- The cover of a selection as a table, and its total. -/
def cover (s : Selection) (ansi : Bool) : Except Fault String := do
  let instances ← s.cover
  let rows ← instances.mapM (instanceRow s.graph)
  let printed ← table ["name", "tile", "loc", "inputs", "covers"] 2 rows ansi
  let total ← s.total
  .ok (printed ++ "total cost: " ++ toString total ++ "\n")

def tileRow (tile : Tile) : Row :=
  ⟨[tile.name, tile.pattern.render, toString tile.pattern.depth, tile.loc.name, toString tile.cost],
    tile.loc⟩

def catalog (catalog : Catalog) (ansi : Bool) : Except Fault String :=
  table ["tile", "pattern", "depth", "loc", "cost"] 3 (catalog.tiles.map tileRow) ansi

def vertex (g : Graph) (a : Annotation) : Except Fault String := do
  let ⟨id, node⟩ ← g.vertex a.node
  .ok ("    " ++ toString id ++ " [ label = \"" ++ node.name ++ " = " ++ node.opcode.mnemonic ++
    "\\n" ++ a.tile.name ++ "@" ++ a.loc.name ++ ":" ++ toString a.cost ++ "\" ]\n")

def edge (source target : NodeId) (label : String) : String :=
  "    " ++ toString source ++ " -> " ++ toString target ++ " [ label = \"" ++ label ++ "\" ]\n"

def edges (g : Graph) (a : Annotation) : Except Fault String := do
  match ← g.vertex a.node with
  | ⟨_, .leaf _⟩ => .ok ""
  | ⟨id, .binary _ _ lhs rhs⟩ => .ok (edge id lhs "lhs" ++ edge id rhs "rhs")

/-- A selection as a directed graph: the annotated nodes, then their edges. -/
def dot (s : Selection) : Except Fault String := do
  let vertices ← s.annotations.mapM (vertex s.graph)
  let edges ← s.annotations.mapM (edges s.graph)
  .ok ("digraph \x7b\n" ++ String.join vertices ++ String.join edges ++ "\x7d\n")

end TileSelect.Report
