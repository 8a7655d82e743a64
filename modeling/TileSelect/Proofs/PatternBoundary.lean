import TileSelect.Pattern.Basic
import TileSelect.Proofs.GraphReachability
import TileSelect.Proofs.ResultSequences

/-! # What a match takes in and leaves

Testing a pattern at a node of the graph looks at nodes of the graph only.  Where the pattern matches it has a
boundary, and the inputs at the boundary are nodes under the node of the match. -/
namespace TileSelect

/-- Operands of a node are in the graph as the node is, so that testing breaks off at once or not at all. -/
theorem Shape.test_eq_ok {g : Graph} (shape : Shape) {id : NodeId} (hid : id < g.size) :
    shape.test g id = .ok (shape.accepts g id) := by
  induction shape generalizing id with
  | free => rfl
  | node op left right ihl ihr =>
    obtain ⟨node, hnode⟩ := Graph.exists_node_of_lt hid
    rw [test, accepts, Graph.node_eq_ok_iff.mpr hnode, hnode]
    cases node with
    | leaf name => rfl
    | binary name op' lhs rhs =>
      obtain ⟨hl, hr⟩ := Graph.lt_of_node? hnode
      simp only [Result.ok_bind, ihl (Nat.lt_trans hl hid), ihr (Nat.lt_trans hr hid)]
      cases op.accepts op' <;> cases left.accepts g lhs <;> rfl

/-- A pattern is tested at the nodes of the graph and nowhere else. -/
theorem Pattern.test_eq (p : Pattern) (g : Graph) (id : NodeId) :
    p.test g id = if id < g.size then .ok (p.accepts g id) else .error .outOfRange := by
  split
  · next hid => exact p.shape.test_eq_ok hid
  · next hid =>
    rw [test, shape, Shape.test, Graph.node_eq_error hid]
    rfl

/-- A shape that asks for something has a boundary at a leaf if it asks nothing of operands, and at a binary
node if what it asks of the operands has. -/
theorem Shape.boundary_node_eq_ok_iff {g : Graph} {op : Opcode} {left right : Shape} {id : NodeId}
    {b : Boundary} :
    (Shape.node op left right).boundary g id = .ok b ↔
      (∃ name, g.node? id = some (.leaf name) ∧ left.isFree = true ∧ right.isFree = true ∧
        b = ⟨[], []⟩) ∨
      ∃ name op' lhs rhs l r, g.node? id = some (.binary name op' lhs rhs) ∧
        left.boundary g lhs = .ok l ∧ right.boundary g rhs = .ok r ∧
        b = ⟨l.inputs ++ r.inputs,
          left.taken lhs ++ l.interior ++ (right.taken rhs ++ r.interior)⟩ := by
  rw [Shape.boundary]
  split
  · next hnode => simp [hnode]
  · next name hnode =>
    split
    · next hfree =>
      obtain ⟨hleft, hright⟩ := Bool.and_eq_true_iff.mp hfree
      simp [hnode, hleft, hright, eq_comm]
    · next hfree =>
      rw [Bool.and_eq_true] at hfree
      simp only [hnode, Option.some.injEq, reduceCtorEq, false_and, exists_false, or_false, false_iff]
      rintro ⟨_, -, hleft, hright, -⟩
      exact hfree ⟨hleft, hright⟩
  · next name op' lhs rhs hnode =>
    simp only [hnode, Result.bind_eq_ok_iff, Option.some.injEq, reduceCtorEq, false_and, exists_false,
      false_or, Node.binary.injEq, Except.ok.injEq]
    constructor
    · rintro ⟨l, hl, r, hr, rfl⟩
      exact ⟨name, op', lhs, rhs, l, r, ⟨rfl, rfl, rfl, rfl⟩, hl, hr, rfl⟩
    · rintro ⟨_, _, _, _, l, r, ⟨rfl, rfl, rfl, rfl⟩, hl, hr, rfl⟩
      exact ⟨l, hl, r, hr, rfl⟩

/-- A shape that a node has asks for no operands that the node lacks. -/
theorem Shape.exists_boundary {g : Graph} {shape : Shape} {id : NodeId}
    (h : shape.accepts g id = true) : ∃ b, shape.boundary g id = .ok b := by
  induction shape generalizing id with
  | free => exact ⟨_, rfl⟩
  | node op left right ihl ihr =>
    rw [Shape.accepts] at h
    split at h
    · cases h
    · next name hnode =>
      rw [Bool.and_eq_true, Bool.and_eq_true] at h
      exact ⟨_, Shape.boundary_node_eq_ok_iff.mpr (Or.inl ⟨name, hnode, h.1.2, h.2, rfl⟩)⟩
    · next name op' lhs rhs hnode =>
      rw [Bool.and_eq_true, Bool.and_eq_true] at h
      obtain ⟨l, hl⟩ := ihl h.1.2
      obtain ⟨r, hr⟩ := ihr h.2
      exact ⟨_, Shape.boundary_node_eq_ok_iff.mpr
        (Or.inr ⟨name, op', lhs, rhs, l, r, hnode, hl, hr, rfl⟩)⟩

theorem Shape.reaches_of_mem_inputs {g : Graph} {shape : Shape} {id : NodeId} {b : Boundary}
    (h : shape.boundary g id = .ok b) : ∀ input ∈ b.inputs, g.Reaches id input := by
  induction shape generalizing id b with
  | free =>
    obtain rfl : ⟨[id], []⟩ = b := Except.ok.inj h
    intro input hinput
    rw [List.mem_singleton.mp hinput]
    exact .refl id
  | node op left right ihl ihr =>
    rcases Shape.boundary_node_eq_ok_iff.mp h with
      ⟨name, hnode, -, -, rfl⟩ | ⟨name, op', lhs, rhs, l, r, hnode, hl, hr, rfl⟩
    · simp
    · intro input hinput
      rw [Graph.reaches_binary hnode]
      rcases List.mem_append.mp hinput with hinput | hinput
      · exact Or.inl (ihl hl input hinput)
      · exact Or.inr (Or.inl (ihr hr input hinput))

theorem Pattern.exists_boundary {g : Graph} {p : Pattern} {id : NodeId}
    (h : p.accepts g id = true) : ∃ b, p.boundary g id = .ok b :=
  Shape.exists_boundary h

theorem Pattern.reaches_of_mem_inputs {g : Graph} {p : Pattern} {id : NodeId} {b : Boundary}
    (h : p.boundary g id = .ok b) : ∀ input ∈ b.inputs, g.Reaches id input :=
  Shape.reaches_of_mem_inputs h

end TileSelect
