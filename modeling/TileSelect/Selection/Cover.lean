import TileSelect.Selection.Basic

/-! # The cover of a selection

Only some of the annotated nodes are needed: the root, and the inputs of the tile of every node that is needed.
The cover lists their tiles, inputs before the tiles that use them, each node once.  Its total adds the
tiles' own costs, so that a shared input is paid for once. -/
namespace TileSelect

/-- A tile in use: where it is rooted, the inputs it leaves to other instances and the nodes it takes in.  Like an
annotation it holds the tile as it was when it was selected. -/
structure Instance where
  node : NodeId
  tile : Tile
  inputs : List NodeId
  covered : List NodeId
  deriving DecidableEq

namespace Selection

/-- The nodes a cover has reached and the instances it has listed. -/
structure CoverState where
  reached : BitSet
  instances : List Instance

/-- Lists the instances needed for a node after those listed already. -/
def coverNode (s : Selection) (id : NodeId) (state : CoverState) : Except Fault CoverState :=
  match state.reached.insert id with
  | (false, _) => .ok state
  | (true, reached) =>
    match s.annotation? id with
    | none => .error .outOfRange
    | some a =>
      match _hb : a.tile.pattern.boundary s.graph id with
      | .error fault => .error fault
      | .ok b => do
        let state ← b.inputs.attach.foldlM
          (fun state input => coverNode s input.val state) { state with reached := reached }
        .ok { state with instances := state.instances ++ [⟨id, a.tile, b.inputs, b.interior⟩] }
termination_by id
decreasing_by exact Pattern.lt_of_mem_boundary _hb input.val input.property

/-- The instances needed for the root. -/
def cover (s : Selection) : Except Fault (List Instance) := do
  let state ← s.coverNode s.root ⟨BitSet.ofSize s.memo.size, []⟩
  .ok state.instances

def total (s : Selection) : Except Fault UInt64 := do
  let instances ← s.cover
  .ok (Cost.total (instances.map fun i => i.tile.cost))

end Selection
end TileSelect
