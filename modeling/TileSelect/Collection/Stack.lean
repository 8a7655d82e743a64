import TileSelect.Fault

/-! # Stacks

Last in, first out.  Looking at or taking from an empty stack is a fault.  The room that a stack is made with
only saves growing, but there is a limit to what can be asked for. -/
namespace TileSelect

/-- A stack, its top first. -/
structure Stack (α : Type) where
  items : List α := []

namespace Stack

variable {α : Type}

/-- The largest number of items that room can be asked for. -/
def maxRoom : Nat := 0x100000000000

/-- An empty stack with room for a number of items, if there can be so much room. -/
def ofRoom? (room : Nat) : Except Fault (Stack α) :=
  if maxRoom < room then .error .outOfRange else .ok {}

def isEmpty (stack : Stack α) : Bool := stack.items.isEmpty

def size (stack : Stack α) : Nat := stack.items.length

def push (stack : Stack α) (item : α) : Stack α := ⟨item :: stack.items⟩

def peek (stack : Stack α) : Except Fault α :=
  match stack.items with
  | [] => .error .peekEmpty
  | item :: _ => .ok item

def pop (stack : Stack α) : Except Fault (α × Stack α) :=
  match stack.items with
  | [] => .error .popEmpty
  | item :: items => .ok (item, ⟨items⟩)

@[simp] theorem pop_push (stack : Stack α) (item : α) : (stack.push item).pop = .ok (item, stack) := rfl

@[simp] theorem peek_push (stack : Stack α) (item : α) : (stack.push item).peek = .ok item := rfl

end Stack
end TileSelect
