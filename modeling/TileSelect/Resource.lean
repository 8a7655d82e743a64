import TileSelect.Fault

/-! # Resources

Tiles run on one of three resources, the cheaper the more specialised.  A location is one byte: a resource, or
a reserved code that stands for none and has no cost. -/
namespace TileSelect

/-- Where a tile can run. -/
inductive Resource where
  | generic
  | lut
  | dsp
  deriving DecidableEq, Repr

namespace Resource

/-- What a tile costs unless it says otherwise. -/
def unitCost : Resource → UInt64
  | generic => 3
  | lut => 2
  | dsp => 1

def name : Resource → String
  | generic => "generic"
  | lut => "lut"
  | dsp => "dsp"

/-- The resource with a name; `gen` is short for generic. -/
def parse? (name : String) : Option Resource :=
  if name = "gen" ∨ name = "generic" then some generic
  else if name = "lut" then some lut
  else if name = "dsp" then some dsp
  else none

theorem parse?_name (r : Resource) : parse? r.name = some r := by cases r <;> rfl

end Resource

inductive Loc where
  | resource (r : Resource)
  /-- Codes from three on, which stand for no resource. -/
  | reserved (extra : Fin 253)
  deriving DecidableEq, Repr

namespace Loc

def code : Loc → Nat
  | resource .generic => 0
  | resource .lut => 1
  | resource .dsp => 2
  | reserved extra => extra.val + 3

def ofCode (code : UInt8) : Loc :=
  match code.toNat with
  | 0 => resource .generic
  | 1 => resource .lut
  | 2 => resource .dsp
  | n + 3 => if h : n < 253 then reserved ⟨n, h⟩ else resource .generic

theorem code_ofCode (c : UInt8) : (ofCode c).code = c.toNat := by
  have hc : c.toNat < 256 := c.toNat_lt
  unfold ofCode
  split <;> simp_all only [code]
  next n hn => rw [dif_pos (by omega)]

/-- The unit cost of the resource at a location. -/
def unitCost : Loc → Except Fault UInt64
  | resource r => .ok r.unitCost
  | reserved extra => .error (.unknownResource (extra.val + 3))

def name : Loc → String
  | resource r => r.name
  | reserved extra => "loc(" ++ toString (extra.val + 3) ++ ")"

end Loc
end TileSelect
