import TileSelect.Proofs.DependencyOrder

/-! # Nodes under a node

A node reaches itself and whatever its operands reach.  Since operands come earlier in the table, everything
that a node of the graph reaches is in the graph, and a statement about all nodes may be proved for leaves
and carried from operands to the nodes that use them.  `unfolded` writes the values under a node out as a
tree, operands first; it lists exactly the nodes reached. -/
namespace TileSelect.Graph

/-- The second node is an operand of the first. -/
def Uses (g : Graph) (id operand : NodeId) : Prop :=
  ∃ node, g.node? id = some node ∧ operand ∈ node.operands

/-- A node can be got to from another by going to operands. -/
inductive Reaches (g : Graph) : NodeId → NodeId → Prop where
  | refl (id : NodeId) : Reaches g id id
  | step {id operand target : NodeId} (huses : g.Uses id operand) (tail : Reaches g operand target) :
      Reaches g id target

theorem not_uses_leaf {g : Graph} {id operand : NodeId} {name : String}
    (hnode : g.node? id = some (.leaf name)) : ¬g.Uses id operand := by
  rintro ⟨node, hnode', hoperand⟩
  cases Option.some.inj (hnode.symm.trans hnode')
  simp [Node.operands] at hoperand

theorem uses_binary {g : Graph} {id lhs rhs operand : NodeId} {name : String} {op : Opcode}
    (hnode : g.node? id = some (.binary name op lhs rhs)) :
    g.Uses id operand ↔ operand = lhs ∨ operand = rhs := by
  simp [Uses, hnode, Node.operands]

theorem Uses.lt {g : Graph} {id operand : NodeId} (h : g.Uses id operand) : operand < id := by
  obtain ⟨node, hnode, hoperand⟩ := h
  exact operands_lt_of_node? hnode operand hoperand

theorem Reaches.trans {g : Graph} {a b c : NodeId} (hab : g.Reaches a b) (hbc : g.Reaches b c) :
    g.Reaches a c := by
  induction hab with
  | refl => exact hbc
  | step huses _ ih => exact .step huses (ih hbc)

theorem Reaches.le {g : Graph} {a b : NodeId} (h : g.Reaches a b) : b ≤ a := by
  induction h with
  | refl => exact Nat.le_refl _
  | step huses _ ih => exact Nat.le_of_lt (Nat.lt_of_le_of_lt ih huses.lt)

theorem Reaches.lt_size {g : Graph} {a b : NodeId} (h : g.Reaches a b) (ha : a < g.size) :
    b < g.size :=
  Nat.lt_of_le_of_lt h.le ha

theorem reaches_leaf {g : Graph} {id n : NodeId} {name : String}
    (hnode : g.node? id = some (.leaf name)) : g.Reaches id n ↔ n = id := by
  constructor
  · intro h
    cases h with
    | refl => rfl
    | step huses _ => exact absurd huses (not_uses_leaf hnode)
  · rintro rfl
    exact .refl _

theorem reaches_binary {g : Graph} {id lhs rhs n : NodeId} {name : String} {op : Opcode}
    (hnode : g.node? id = some (.binary name op lhs rhs)) :
    g.Reaches id n ↔ g.Reaches lhs n ∨ g.Reaches rhs n ∨ n = id := by
  constructor
  · intro h
    cases h with
    | refl => exact Or.inr (Or.inr rfl)
    | step huses tail =>
      rcases (uses_binary hnode).mp huses with rfl | rfl
      · exact Or.inl tail
      · exact Or.inr (Or.inl tail)
  · rintro (h | h | rfl)
    · exact .step ((uses_binary hnode).mpr (Or.inl rfl)) h
    · exact .step ((uses_binary hnode).mpr (Or.inr rfl)) h
    · exact .refl _

theorem exists_node_of_lt {g : Graph} {id : NodeId} (h : id < g.size) :
    ∃ node, g.node? id = some node := by
  have hid : id < g.vertices.size := h
  exact ⟨_, node?_eq_some_iff.mpr ⟨_, Array.getElem?_eq_getElem hid, rfl⟩⟩

theorem lt_size_of_vertex? {g : Graph} {id : NodeId} {vertex : Vertex} (h : g.vertex? id = some vertex) :
    id < g.size :=
  (Array.getElem?_eq_some_iff.mp h).1

theorem lt_size_of_node? {g : Graph} {id : NodeId} {node : Node} (h : g.node? id = some node) :
    id < g.size := by
  obtain ⟨vertex, hvertex, -⟩ := node?_eq_some_iff.mp h
  exact lt_size_of_vertex? hvertex

theorem node_eq_ok_iff {g : Graph} {id : NodeId} {node : Node} :
    g.node id = .ok node ↔ g.node? id = some node := by
  unfold Graph.node
  cases g.node? id <;> simp

theorem node_eq_error {g : Graph} {id : NodeId} (h : ¬ id < g.size) : g.node id = .error .outOfRange := by
  unfold Graph.node
  cases hnode : g.node? id with
  | none => rfl
  | some node => exact absurd (lt_size_of_node? hnode) h

/-- What holds of leaves, and of a node whenever it holds of both operands, holds of every node. -/
@[elab_as_elim] theorem node_induction {g : Graph}
    {motive : (id : NodeId) → id < g.size → Prop}
    (leaf : ∀ id name (hnode : g.node? id = some (.leaf name)),
      motive id (lt_size_of_node? hnode))
    (binary : ∀ id name op lhs rhs (hnode : g.node? id = some (.binary name op lhs rhs)) hl hr,
      motive lhs hl → motive rhs hr → motive id (lt_size_of_node? hnode))
    (id : NodeId) (hid : id < g.size) : motive id hid := by
  obtain ⟨node, hnode⟩ := exists_node_of_lt hid
  cases node with
  | leaf name => exact leaf id name hnode
  | binary name op lhs rhs =>
    have hl : lhs < id := (lt_of_node? hnode).1
    have hr : rhs < id := (lt_of_node? hnode).2
    exact binary id name op lhs rhs hnode (Nat.lt_trans hl hid) (Nat.lt_trans hr hid)
      (node_induction leaf binary lhs _) (node_induction leaf binary rhs _)
termination_by id

/-- The values under a node as a tree, operands first: a node stands once for every path to it. -/
def unfolded (g : Graph) (id : NodeId) : List NodeId :=
  match _hnode : g.node? id with
  | none => []
  | some (.leaf _) => [id]
  | some (.binary _ _ lhs rhs) => unfolded g lhs ++ unfolded g rhs ++ [id]
termination_by id
decreasing_by
  · exact (lt_of_node? _hnode).1
  · exact (lt_of_node? _hnode).2

theorem unfolded_leaf {g : Graph} {id : NodeId} {name : String}
    (h : g.node? id = some (.leaf name)) : g.unfolded id = [id] := by
  rw [unfolded]
  split <;> simp_all

theorem unfolded_binary {g : Graph} {id lhs rhs : NodeId} {name : String} {op : Opcode}
    (h : g.node? id = some (.binary name op lhs rhs)) :
    g.unfolded id = g.unfolded lhs ++ g.unfolded rhs ++ [id] := by
  rw [unfolded]
  split <;> simp_all

/-- The tree of a node has exactly the nodes it reaches. -/
theorem mem_unfolded {g : Graph} {id : NodeId} (hid : id < g.size) (n : NodeId) :
    n ∈ g.unfolded id ↔ g.Reaches id n := by
  induction id, hid using node_induction with
  | leaf id name hnode => rw [unfolded_leaf hnode, List.mem_singleton, reaches_leaf hnode]
  | binary id name op lhs rhs hnode _ _ ihl ihr =>
    rw [unfolded_binary hnode, List.mem_append, List.mem_append, List.mem_singleton, ihl, ihr,
      reaches_binary hnode, or_assoc]

def OperandsFirst (g : Graph) (ids : List NodeId) : Prop := NeedsFirst (fun id => id) g.Uses ids

theorem OperandsFirst.mem_of_reaches {g : Graph} {ids : List NodeId} (h : g.OperandsFirst ids)
    {id n : NodeId} (hreaches : g.Reaches id n) (hid : id ∈ ids) : n ∈ ids := by
  induction hreaches with
  | refl => exact hid
  | step huses _ ih => exact ih (by simpa using NeedsFirst.mem_of_mem h hid huses)

/-- Before a node of such a list stands everything under it. -/
theorem OperandsFirst.mem_before {g : Graph} {before after : List NodeId} {id n : NodeId}
    (h : g.OperandsFirst (before ++ id :: after)) (hreaches : g.Reaches id n) (hne : n ≠ id) :
    n ∈ before := by
  have hbefore : g.OperandsFirst before := NeedsFirst.of_append h
  cases hreaches with
  | refl => exact absurd rfl hne
  | step huses tail =>
    exact hbefore.mem_of_reaches tail (by simpa using h before id after rfl _ huses)

theorem operandsFirst_unfolded {g : Graph} {id : NodeId} (hid : id < g.size) :
    g.OperandsFirst (g.unfolded id) := by
  induction id, hid using node_induction with
  | leaf id name hnode =>
    rw [unfolded_leaf hnode]
    exact NeedsFirst.nil.concat fun n hn => absurd hn (not_uses_leaf hnode)
  | binary id name op lhs rhs hnode hl hr ihl ihr =>
    rw [unfolded_binary hnode]
    apply (NeedsFirst.append ihl ihr).concat
    intro n hn
    rw [List.map_id', List.mem_append, mem_unfolded hl, mem_unfolded hr]
    rcases (uses_binary hnode).mp hn with rfl | rfl
    · exact Or.inl (.refl _)
    · exact Or.inr (.refl _)

end TileSelect.Graph
