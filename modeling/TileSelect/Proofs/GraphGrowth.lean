import TileSelect.Graph.Builder
import TileSelect.Proofs.GraphEvaluation
import TileSelect.Proofs.ResultSequences

/-! # How a graph grows

Building only ever adds a node at the end of the table or moves the root.  Nodes, names and values that were there
before stay, and each step of the builder is one of a few such changes, under conditions on names alone. -/
namespace TileSelect

universe u

variable {V : Type u}

namespace Graph

variable {g : Graph}

@[simp] theorem lookup_withRoot (root : NodeId) (name : String) :
    (g.withRoot root).lookup name = g.lookup name := rfl

@[simp] theorem lookup_empty (name : String) : empty.lookup name = none := rfl

theorem eval_withRoot (m : Interpretation V) (root : NodeId) {id : NodeId} (hid : id < g.size) :
    (g.withRoot root).eval m id = g.eval m id :=
  eval_congr m hid fun _ _ => rfl

section Push

variable {node : Node} (h : ∀ operand ∈ node.operands, operand < g.size)

theorem vertex?_push (id : NodeId) :
    (g.push node h).vertex? id = if id = g.size then some ⟨g.size, node⟩ else g.vertex? id :=
  Array.getElem?_push

theorem node?_push (id : NodeId) :
    (g.push node h).node? id = if id = g.size then some node else g.node? id := by
  rw [node?, vertex?_push]
  split <;> rfl

theorem node?_push_of_lt {id : NodeId} (hid : id < g.size) :
    (g.push node h).node? id = g.node? id := by
  rw [node?_push, if_neg (Nat.ne_of_lt hid)]

theorem node?_push_size : (g.push node h).node? g.size = some node := by
  rw [node?_push, if_pos rfl]

theorem lookup_push (name : String) : (g.push node h).lookup name =
    if name = node.name then some g.size else g.lookup name := rfl

theorem lookup_push_self : (g.push node h).lookup node.name = some g.size := by
  rw [lookup_push, if_pos rfl]

theorem lookup_push_of_ne {name : String} (hname : name ≠ node.name) :
    (g.push node h).lookup name = g.lookup name := by
  rw [lookup_push, if_neg hname]

/-- A new name takes nothing from the names that are bound. -/
theorem lookup_push_of_eq_some (hnew : g.lookup node.name = none) {name : String} {id : NodeId}
    (hname : g.lookup name = some id) : (g.push node h).lookup name = some id := by
  have hne : name ≠ node.name := by
    rintro rfl
    cases hnew.symm.trans hname
  rw [lookup_push_of_ne h hne, hname]

theorem eval_push_of_lt (m : Interpretation V) {id : NodeId} (hid : id < g.size) :
    (g.push node h).eval m id = g.eval m id :=
  eval_congr m hid fun _ hn => node?_push_of_lt h (Nat.lt_of_le_of_lt hn hid)

end Push

/-- Every node carries the number of its place, and a name leads to a node exactly if the node has that name. -/
structure Consistent (g : Graph) : Prop where
  numbered : ∀ id vertex, g.vertex? id = some vertex → vertex.id = id
  named : ∀ name id, g.lookup name = some id ↔ ∃ node, g.node? id = some node ∧ node.name = name

theorem consistent_empty : empty.Consistent where
  numbered id vertex h := by simp [vertex?, empty] at h
  named name id := by simp [node?, vertex?, empty, lookup]

namespace Consistent

theorem withRoot (hg : g.Consistent) (root : NodeId) : (g.withRoot root).Consistent :=
  ⟨hg.numbered, hg.named⟩

/-- A name leads to one node only. -/
theorem eq_of_name_eq (hg : g.Consistent) {id id' : NodeId} {node node' : Node}
    (hnode : g.node? id = some node) (hnode' : g.node? id' = some node')
    (hname : node.name = node'.name) : id = id' := by
  have hid := (hg.named node.name id).mpr ⟨node, hnode, rfl⟩
  have hid' := (hg.named node.name id').mpr ⟨node', hnode', hname.symm⟩
  exact Option.some.inj (hid.symm.trans hid')

theorem lt_size_of_lookup (hg : g.Consistent) {name : String} {id : NodeId}
    (h : g.lookup name = some id) : id < g.size := by
  obtain ⟨node, hnode, -⟩ := (hg.named name id).mp h
  exact lt_size_of_node? hnode

/-- A node has one name only. -/
theorem name_of_lookup (hg : g.Consistent) {name : String} {id : NodeId} {node : Node}
    (h : g.lookup name = some id) (hnode : g.node? id = some node) : node.name = name := by
  obtain ⟨node', hnode', hname⟩ := (hg.named name id).mp h
  rwa [Option.some.inj (hnode.symm.trans hnode')]

theorem push (hg : g.Consistent) {node : Node} (h : ∀ operand ∈ node.operands, operand < g.size)
    (hnew : g.lookup node.name = none) : (g.push node h).Consistent := by
  constructor
  · intro id vertex hvertex
    rw [vertex?_push] at hvertex
    split at hvertex
    · next hid =>
      obtain rfl := Option.some.inj hvertex
      exact hid.symm
    · exact hg.numbered id vertex hvertex
  · intro name id
    by_cases hname : name = node.name
    · subst hname
      rw [lookup_push_self, node?_push]
      split
      · next hid => simp [hid]
      · next hid =>
        -- no earlier node has the new name
        constructor
        · intro hsize
          exact absurd (Option.some.inj hsize).symm hid
        · intro hnode
          cases hnew.symm.trans ((hg.named _ _).mpr hnode)
    · rw [lookup_push_of_ne h hname, hg.named, node?_push]
      split
      · next hid =>
        subst hid
        constructor
        · rintro ⟨found, hfound, -⟩
          exact absurd (lt_size_of_node? hfound) (Nat.lt_irrefl _)
        · rintro ⟨found, hfound, hother⟩
          rw [Option.some.inj hfound] at hname
          exact absurd hother.symm hname
      · rfl

end Consistent

theorem answered_add_eq_ok_iff {node : Node} {h : ∀ operand ∈ node.operands, operand < g.size}
    {added : NodeId × Graph} : answered (g.add node h) = .ok added ↔
      g.lookup node.name = none ∧ added = (g.size, g.push node h) := by
  unfold add
  cases hname : g.lookup node.name with
  | some id => simp [answered]
  | none => simp [answered, eq_comm]

theorem leaf_eq_ok_iff {name : String} {added : NodeId × Graph} :
    g.leaf name = .ok added ↔
      g.lookup name = none ∧ ∃ h, added = (g.size, g.push (.leaf name) h) := by
  refine answered_add_eq_ok_iff.trans ?_
  constructor
  · rintro ⟨hname, hadded⟩
    exact ⟨hname, _, hadded⟩
  · rintro ⟨hname, _, hadded⟩
    exact ⟨hname, hadded⟩

theorem binary_eq_ok_iff {name : String} {op : Opcode} {lhs rhs : NodeId}
    {added : NodeId × Graph} :
    g.binary name op lhs rhs = .ok added ↔
      op.isBinary ∧ g.lookup name = none ∧
        ∃ h, added = (g.size, (g.push (.binary name op lhs rhs) h).withRoot g.size) := by
  unfold binary addBinary
  by_cases hop : op.isBinary
  case neg => simp [hop, answered]
  by_cases hlt : lhs < g.size ∧ rhs < g.size
  · rw [if_neg (by simp [hop]), dif_pos hlt, add]
    cases hname : g.lookup (Node.binary name op lhs rhs).name with
    | some id =>
      constructor
      · intro h
        cases h
      · rintro ⟨-, hnone, -⟩
        cases hname.symm.trans hnone
    | none =>
      constructor
      · intro h
        exact ⟨hop, hname, _, (Except.ok.inj h).symm⟩
      · rintro ⟨-, -, _, rfl⟩
        rfl
  · rw [if_neg (by simp [hop]), dif_neg hlt]
    constructor
    · intro h
      cases h
    · rintro ⟨-, -, h, -⟩
      exact absurd ⟨h lhs (by simp [Node.operands]), h rhs (by simp [Node.operands])⟩ hlt

theorem isApplication_iff {node : Option Node} {op : Opcode} {lhs rhs : NodeId} :
    isApplication node op lhs rhs ↔ ∃ name, node = some (.binary name op lhs rhs) := by
  unfold isApplication
  split
  · next name op' lhs' rhs' => simp [and_assoc]
  · next hne =>
    constructor
    · intro h
      cases h
    · rintro ⟨name, h⟩
      exact absurd h (hne name op lhs rhs)

theorem declare_eq_ok_iff {program : Program} {name : String} {g' : Graph} :
    declare program g name = .ok g' ↔
      g.lookup name = none ∧ program.defines name = false ∧ ∃ h, g' = g.push (.leaf name) h := by
  unfold declare orFault
  split
  · next hbound =>
    constructor
    · intro h
      cases h
    · rintro ⟨hname, hdefines, -⟩
      simp [hname, hdefines] at hbound
  · next hbound =>
    simp only [Bool.or_eq_true, not_or, Bool.not_eq_true, Option.isSome_eq_false_iff,
      Option.isNone_iff_eq_none] at hbound
    simp only [Result.bind_eq_ok_iff, Result.mapError_eq_ok_iff, leaf_eq_ok_iff]
    constructor
    · rintro ⟨_, ⟨-, h, rfl⟩, hg⟩
      exact ⟨hbound.1, hbound.2, h, (Except.ok.inj hg).symm⟩
    · rintro ⟨-, -, h, rfl⟩
      exact ⟨_, ⟨hbound.1, h, rfl⟩, rfl⟩

theorem resolve_eq_ok_iff {program : Program} {options : BuildOptions} {index : Nat}
    {name : String} {id : NodeId} {g' : Graph} :
    resolve program options index g name = .ok (id, g') ↔
      (g.lookup name = some id ∧ g' = g) ∨
      (g.lookup name = none ∧ program.defines name = false ∧ options.strict = false ∧
        id = g.size ∧ ∃ h, g' = g.push (.leaf name) h) := by
  unfold resolve
  cases hname : g.lookup name with
  | some found => simp [eq_comm (a := g')]
  | none =>
    by_cases hrefused : (program.defines name || options.strict) = true
    · simp only [hrefused, if_true, reduceCtorEq, false_and, true_and, false_or, false_iff]
      rintro ⟨hdefines, hstrict, -⟩
      simp [hdefines, hstrict] at hrefused
    · simp only [Bool.or_eq_true, not_or, Bool.not_eq_true] at hrefused
      simp [hrefused, orFault, Result.mapError_eq_ok_iff, leaf_eq_ok_iff, hname]

theorem define_eq_ok_iff {options : BuildOptions} {index : Nat} {insn : Instruction}
    {lhs rhs : NodeId} {g' : Graph} :
    define options index g insn lhs rhs = .ok g' ↔
      (∃ id name, g.lookup insn.dst = some id ∧ options.reuse ∧
        g.node? id = some (.binary name insn.op lhs rhs) ∧ g' = g.withRoot id) ∨
      (g.lookup insn.dst = none ∧ insn.op.isBinary ∧
        ∃ h, g' = (g.push (.binary insn.dst insn.op lhs rhs) h).withRoot g.size) := by
  unfold define
  cases hname : g.lookup insn.dst with
  | some id =>
    by_cases hsame : (options.reuse && isApplication (g.node? id) insn.op lhs rhs) = true
    · obtain ⟨hreuse, happlies⟩ := Bool.and_eq_true_iff.mp hsame
      obtain ⟨name, hnode⟩ := isApplication_iff.mp happlies
      simp only [hsame, if_true]
      constructor
      · intro h
        exact .inl ⟨id, name, rfl, hreuse, hnode, (Except.ok.inj h).symm⟩
      · rintro (⟨_, _, hid, -, -, rfl⟩ | ⟨hid, -⟩)
        · rw [Option.some.inj hid]
        · cases hid
    · simp only [hsame, if_false, reduceCtorEq, false_and, or_false, false_iff, Bool.false_eq_true]
      rintro ⟨_, name, hid, hreuse, hnode, -⟩
      obtain rfl := Option.some.inj hid
      exact hsame (Bool.and_eq_true_iff.mpr ⟨hreuse, isApplication_iff.mpr ⟨name, hnode⟩⟩)
  | none =>
    simp only [orFault, Result.bind_eq_ok_iff, Result.mapError_eq_ok_iff, binary_eq_ok_iff]
    constructor
    · rintro ⟨_, ⟨hop, -, h, rfl⟩, hg⟩
      exact .inr ⟨trivial, hop, h, (Except.ok.inj hg).symm⟩
    · rintro (⟨_, _, hid, -⟩ | ⟨-, hop, h, rfl⟩)
      · cases hid
      · exact ⟨_, ⟨hop, hname, h, rfl⟩, rfl⟩

/-- An instruction is added by resolving both operands, left to right, and defining its destination. -/
theorem addInstruction_eq_ok_iff {program : Program} {options : BuildOptions} {index : Nat}
    {insn : Instruction} {g' : Graph} :
    addInstruction program options index g insn = .ok g' ↔
      insn.op.isBinary ∧ ∃ lhs g₁ rhs g₂,
        resolve program options index g insn.lhs = .ok (lhs, g₁) ∧
        resolve program options index g₁ insn.rhs = .ok (rhs, g₂) ∧
        define options index g₂ insn lhs rhs = .ok g' := by
  unfold addInstruction
  by_cases hop : insn.op.isBinary
  case neg => simp [hop]
  simp [hop, Result.bind_eq_ok_iff]

end Graph
end TileSelect
