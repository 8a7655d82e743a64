import TileSelect.Selection.Basic

/-! # The course of a selection

What a selection looked at and what it selected, node by node, up to the node where it fails if it does.  The
events are taken from the same steps as the selection and do not take part in it. -/
namespace TileSelect.Selection

inductive Event where
  /-- A tile was priced at a node. -/
  | priced (node : String) (a : Annotation)
  /-- A tile was selected for a node. -/
  | selected (node : String) (a : Annotation)

def Event.message : Event → String
  | .priced node a =>
    node ++ ": candidate " ++ a.tile.name ++ " at " ++ a.loc.name ++ " costs " ++ toString a.cost
  | .selected node a =>
    node ++ ": selected " ++ a.tile.name ++ " at " ++ a.loc.name ++ " costing " ++ toString a.cost

def visitEvents (catalog : Catalog) (s : Selection) (id : NodeId) : List Event :=
  match s.candidates catalog id with
  | .error _ => []
  | .ok found =>
    found.map (Event.priced (s.nodeName id)) ++
      (cheapest? found).toList.map (Event.selected (s.nodeName id))

/-- The events of visiting nodes one after another, up to the first that fails. -/
def visitsEvents (catalog : Catalog) : Selection → List NodeId → List Event
  | _, [] => []
  | s, id :: ids =>
    visitEvents catalog s id ++
      match visit catalog s id with
      | .error _ => []
      | .ok s => visitsEvents catalog s ids

def trace (g : Graph) (root : NodeId) (catalog : Catalog) : List Event :=
  match g.postorderOnce root with
  | .error _ => []
  | .ok order => visitsEvents catalog (start g root) order

end TileSelect.Selection
