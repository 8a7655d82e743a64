/-! # YAML nodes

The nodes of a YAML document: scalars, sequences and mappings.  A scalar keeps whether it was quoted, because only
a plain one can mean something other than its text.  A key of a mapping may be any node. -/
namespace TileSelect

inductive Yaml where
  | scalar (quoted : Bool) (text : String)
  | sequence (items : List Yaml)
  | mapping (entries : List (Yaml × Yaml))

namespace Yaml

/-- The node that is not written. -/
def null : Yaml := scalar false ""

/-- The plain scalars that mean nothing. -/
def nullTexts : List String := ["", "~", "null", "Null", "NULL"]

def isNull : Yaml → Bool
  | scalar false text => nullTexts.contains text
  | _ => false

end Yaml
end TileSelect
