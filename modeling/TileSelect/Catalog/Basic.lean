import TileSelect.Pattern.Basic
import TileSelect.Resource

/-! # Tiles and catalogs

A tile implements a pattern on a resource at a cost.  A catalog is a list of tiles; its order matters only
between tiles of equal cost.  A catalog covers an opcode if one of its leaf patterns does, which is enough to
implement any node with that opcode whatever its operands are. -/
namespace TileSelect

/-- A named implementation of a pattern.  There is always a pattern: a tile without one is not a tile. -/
structure Tile where
  name : String
  pattern : Pattern
  loc : Loc
  cost : UInt64
  deriving DecidableEq

def Tile.ofUnitCost (name : String) (loc : Loc) (pattern : Pattern) : Except Fault Tile := do
  let cost ← loc.unitCost
  .ok ⟨name, pattern, loc, cost⟩

def Tile.render (tile : Tile) : String :=
  tile.name ++ " " ++ tile.pattern.render ++ "@" ++ tile.loc.name ++ ":" ++ toString tile.cost

structure Catalog where
  tiles : List Tile := []
  deriving DecidableEq

namespace Catalog

def size (catalog : Catalog) : Nat := catalog.tiles.length

def add (catalog : Catalog) (tile : Tile) : Catalog := ⟨catalog.tiles ++ [tile]⟩

def get (catalog : Catalog) (index : Nat) : Except Fault Tile :=
  match catalog.tiles[index]? with
  | some tile => .ok tile
  | none => .error .outOfRange

def setCost (catalog : Catalog) (index : Nat) (cost : UInt64) : Except Fault Catalog := do
  let tile ← catalog.get index
  .ok ⟨catalog.tiles.set index { tile with cost := cost }⟩

/-- Does a leaf pattern stand for the opcode? -/
def covers (catalog : Catalog) (op : Opcode) : Bool :=
  catalog.tiles.any fun tile => tile.pattern.isLeaf && tile.pattern.op.accepts op

/-- The opcodes of graphs that are not covered. -/
def missing (catalog : Catalog) : List Opcode :=
  Opcode.all.filter fun op => !catalog.covers op

/-- The tiles to use when no catalog is given. -/
def standard : Catalog where
  tiles :=
    [⟨"madd", ⟨.add, .node .mul .free .free, .free⟩, .resource .dsp, 1⟩,
     ⟨"add", .leaf .add, .resource .lut, 3⟩,
     ⟨"mul", .leaf .mul, .resource .dsp, 1⟩,
     ⟨"sub", .leaf .sub, .resource .lut, 2⟩,
     ⟨"add.generic", .leaf .add, .resource .generic, Resource.generic.unitCost⟩,
     ⟨"mul.generic", .leaf .mul, .resource .generic, Resource.generic.unitCost⟩,
     ⟨"sub.generic", .leaf .sub, .resource .generic, Resource.generic.unitCost⟩,
     ⟨"ref", .leaf .ref, .resource .generic, 0⟩]

end Catalog
end TileSelect
