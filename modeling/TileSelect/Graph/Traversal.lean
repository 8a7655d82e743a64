import TileSelect.Collection.BitSet
import TileSelect.Graph.Basic

/-! # Walking a graph

Both walks list a node after its operands, the left one's values before the right one's.  They work off a list
of tasks, entering a node by putting its operands and its own listing in front of what is left to do.  The
plain walk lists a node once for every path to it; the other walk keeps a set of the nodes it entered and
lists each once. -/
namespace TileSelect.Graph

inductive Task where
  /-- Walk the values of a node. -/
  | enter (id : NodeId)
  /-- List a node whose operands are done. -/
  | leave (id : NodeId)
  deriving DecidableEq

/-- More than entering a node can come to: a node weighs more than its operands together. -/
def Task.weight : Task → Nat
  | enter id => Nat.pow 4 (id + 1)
  | leave _ => 1

def weight (tasks : List Task) : Nat := tasks.foldr (fun task total => task.weight + total) 0

theorem weight_cons (task : Task) (tasks : List Task) :
    weight (task :: tasks) = task.weight + weight tasks := rfl

theorem Task.weight_pos (task : Task) : 0 < task.weight := by
  cases task with
  | enter id => exact Nat.pow_pos (by decide)
  | leave id => exact Nat.one_pos

/-- Doing a task is progress. -/
theorem weight_lt_cons (task : Task) (tasks : List Task) : weight tasks < weight (task :: tasks) := by
  rw [weight_cons]
  have := task.weight_pos
  omega

/-- Entering a binary node is progress. -/
theorem weight_expand_lt {g : Graph} {id lhs rhs : NodeId} {name : String} {op : Opcode}
    (h : g.node? id = some (.binary name op lhs rhs)) (tasks : List Task) :
    weight (.enter lhs :: .enter rhs :: .leave id :: tasks) < weight (.enter id :: tasks) := by
  obtain ⟨hl, hr⟩ := lt_of_node? h
  have hl' : Nat.pow 4 (lhs + 1) ≤ Nat.pow 4 id := Nat.pow_le_pow_right (by decide) hl
  have hr' : Nat.pow 4 (rhs + 1) ≤ Nat.pow 4 id := Nat.pow_le_pow_right (by decide) hr
  have hid : 0 < Nat.pow 4 id := Nat.pow_pos (by decide)
  have hs : Nat.pow 4 (id + 1) = Nat.pow 4 id * 4 := rfl
  simp only [weight_cons, Task.weight]
  omega

/-- Works off tasks, listing nodes as they are left.  Every task looks its node up. -/
def walk (g : Graph) (tasks : List Task) : Except Fault (List NodeId) :=
  match tasks with
  | [] => .ok []
  | .leave id :: tasks => do
    let _ ← g.node id
    (id :: ·) <$> walk g tasks
  | .enter id :: tasks =>
    match _hnode : g.node? id with
    | none => .error .outOfRange
    | some (.leaf _) => (id :: ·) <$> walk g tasks
    | some (.binary _ _ lhs rhs) =>
      walk g (.enter lhs :: .enter rhs :: .leave id :: tasks)
termination_by weight tasks
decreasing_by
  · exact weight_lt_cons _ _
  · exact weight_lt_cons _ _
  · exact weight_expand_lt _hnode _

/-- Works off tasks, listing only nodes that were not entered before. -/
def walkUnique (g : Graph) (seen : BitSet) (tasks : List Task) : Except Fault (List NodeId) :=
  match tasks with
  | [] => .ok []
  | .leave id :: tasks => do
    let _ ← g.node id
    (id :: ·) <$> walkUnique g seen tasks
  | .enter id :: tasks =>
    match _hnode : g.node? id, seen.insert id with
    | none, _ => .error .outOfRange
    | some _, (false, seen) => walkUnique g seen tasks
    | some (.leaf _), (true, seen) => (id :: ·) <$> walkUnique g seen tasks
    | some (.binary _ _ lhs rhs), (true, seen) =>
      walkUnique g seen (.enter lhs :: .enter rhs :: .leave id :: tasks)
termination_by weight tasks
decreasing_by
  · exact weight_lt_cons _ _
  · exact weight_lt_cons _ _
  · exact weight_lt_cons _ _
  · exact weight_expand_lt _hnode _

/-- The nodes under a root, operands first, once for every path from the root. -/
def postorder (g : Graph) (root : NodeId) : Except Fault (List NodeId) := walk g [.enter root]

/-- The nodes under a root, operands first, each once. -/
def postorderOnce (g : Graph) (root : NodeId) : Except Fault (List NodeId) :=
  walkUnique g (BitSet.ofSize g.size) [.enter root]

end TileSelect.Graph
