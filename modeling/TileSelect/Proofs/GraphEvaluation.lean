import TileSelect.Proofs.GraphReachability

/-! # The value of a node

Given a value for every leaf and a function for every opcode, a node has the value of the expression under it.
Leaves go by their names, which are different in every graph that is built, so that each leaf may be given a
value of its own.  Nodes of the graph have values, and these depend on nothing but the nodes up to them. -/
namespace TileSelect

universe u

/-- Values for the names of leaves and functions for opcodes. -/
structure Interpretation (V : Type u) where
  leaf : String → V
  apply : Opcode → V → V → V

def Interpretation.integers (leaf : String → Int) : Interpretation Int where
  leaf := leaf
  apply op l r :=
    match op with
    | .add => l + r
    | .mul => l * r
    | .sub => l - r
    | _ => 0

namespace Graph

variable {V : Type u}

/-- The value of a node, computed from the values of its operands. -/
def eval (g : Graph) (m : Interpretation V) (id : NodeId) : Option V :=
  match _hnode : g.node? id with
  | none => none
  | some (.leaf name) => some (m.leaf name)
  | some (.binary _ op lhs rhs) => do
    let l ← eval g m lhs
    let r ← eval g m rhs
    some (m.apply op l r)
termination_by id
decreasing_by
  · exact (lt_of_node? _hnode).1
  · exact (lt_of_node? _hnode).2

theorem eval_leaf {g : Graph} (m : Interpretation V) {id : NodeId} {name : String}
    (h : g.node? id = some (.leaf name)) : g.eval m id = some (m.leaf name) := by
  rw [eval]
  split <;> simp_all

theorem eval_binary {g : Graph} (m : Interpretation V) {id lhs rhs : NodeId} {name : String}
    {op : Opcode} (h : g.node? id = some (.binary name op lhs rhs)) {l r : V}
    (hl : g.eval m lhs = some l) (hr : g.eval m rhs = some r) :
    g.eval m id = some (m.apply op l r) := by
  rw [eval]
  split <;> simp_all

theorem exists_eval {g : Graph} (m : Interpretation V) {id : NodeId} (hid : id < g.size) :
    ∃ v, g.eval m id = some v := by
  induction id, hid using node_induction with
  | leaf id name hnode => exact ⟨_, eval_leaf m hnode⟩
  | binary id name op lhs rhs hnode _ _ ihl ihr =>
    obtain ⟨l, hl⟩ := ihl
    obtain ⟨r, hr⟩ := ihr
    exact ⟨_, eval_binary m hnode hl hr⟩

theorem lt_size_of_eval {g : Graph} {m : Interpretation V} {id : NodeId} {v : V}
    (h : g.eval m id = some v) : id < g.size := by
  rw [eval] at h
  split at h
  · cases h
  · next hnode => exact lt_size_of_node? hnode
  · next hnode => exact lt_size_of_node? hnode

/-- Graphs with the same nodes up to one give it the same value. -/
theorem eval_congr {g g' : Graph} (m : Interpretation V) {id : NodeId} (hid : id < g.size)
    (h : ∀ n ≤ id, g'.node? n = g.node? n) : g'.eval m id = g.eval m id := by
  induction id, hid using node_induction with
  | leaf id name hnode =>
    rw [eval_leaf m hnode, eval_leaf m ((h id (Nat.le_refl id)).trans hnode)]
  | binary id name op lhs rhs hnode hl hr ihl ihr =>
    obtain ⟨hlt, hrt⟩ := lt_of_node? hnode
    obtain ⟨l, hl⟩ := exists_eval m hl
    obtain ⟨r, hr⟩ := exists_eval m hr
    have hl' := (ihl fun n hn => h n (Nat.le_trans hn (Nat.le_of_lt hlt))).trans hl
    have hr' := (ihr fun n hn => h n (Nat.le_trans hn (Nat.le_of_lt hrt))).trans hr
    rw [eval_binary m hnode hl hr,
      eval_binary m ((h id (Nat.le_refl id)).trans hnode) hl' hr']

end Graph
end TileSelect
