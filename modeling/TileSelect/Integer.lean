/-! # Integers of different types

Two integers of different machine types are equal if they have the same value as 64-bit signed integers.  A
64-bit unsigned integer that does not fit is only equal to one of its own type; an unsigned integer of the
machine's word size wraps around instead. -/
namespace TileSelect

/-- The types of value that can be compared. -/
inductive ValueType where
  | int
  | int8
  | int16
  | int32
  | int64
  | uint
  | uint8
  | uint16
  | uint32
  | uint64
  /-- Not an integer. -/
  | other
  deriving DecidableEq, Repr

/-- A value of a type; values of no integer type have value zero. -/
structure TypedValue where
  type : ValueType
  value : Int
  deriving DecidableEq

namespace TypedValue

def signedBound : Int := 0x8000000000000000

def wordCount : Int := 0x10000000000000000

def signed? (v : TypedValue) : Option Int :=
  match v.type with
  | .other => none
  | .uint64 => if signedBound ≤ v.value then none else some v.value
  | .uint => if signedBound ≤ v.value then some (v.value - wordCount) else some v.value
  | _ => some v.value

def sameInteger (a b : TypedValue) : Bool :=
  match a.signed?, b.signed? with
  | some x, some y => x == y
  | none, none => a.type == .uint64 && b.type == .uint64 && a.value == b.value
  | _, _ => false

end TypedValue
end TileSelect
