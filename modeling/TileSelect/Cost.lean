/-! # Saturating costs

Costs are 64-bit words.  A sum past the largest word stays there, so adding more never makes anything
cheaper. -/
namespace TileSelect.Cost

def largest : UInt64 := 0xFFFFFFFFFFFFFFFF

/-- The sum of two costs, or the largest cost if it does not fit: a wrapped sum is below its first term. -/
def add (a b : UInt64) : UInt64 :=
  let sum := a + b
  if a ≤ sum then sum else largest

def total (costs : List UInt64) : UInt64 := costs.foldl add 0

end TileSelect.Cost
