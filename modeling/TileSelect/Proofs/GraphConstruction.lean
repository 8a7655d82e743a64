import TileSelect.Proofs.GraphGrowth

/-! # Graphs that can be made

Graphs are made by building programs and by adding leaves and binary nodes one at a time.  However they are
made, each step adds a leaf or a binary node under a new name or moves the root to a binary node that is there;
what these three steps keep holds of every graph that can be made. -/
namespace TileSelect.Graph

/-- The graphs that building and adding nodes lead to. -/
inductive Constructed : Graph → Prop where
  | empty : Constructed empty
  | build {program : Program} {options : BuildOptions} {g : Graph}
      (hbuild : Graph.build program options = .ok g) : Constructed g
  | leaf {g g' : Graph} {name : String} {id : NodeId} (tail : Constructed g)
      (hadd : g.leaf name = .ok (id, g')) : Constructed g'
  | binary {g g' : Graph} {name : String} {op : Opcode} {lhs rhs id : NodeId}
      (tail : Constructed g) (hadd : g.binary name op lhs rhs = .ok (id, g')) : Constructed g'

/-- What one step of making a graph can do. -/
inductive Grown : Graph → Prop where
  | empty : Grown empty
  | leaf {g : Graph} {name : String} (tail : Grown g) (hname : g.lookup name = none)
      (h : ∀ operand ∈ (Node.leaf name).operands, operand < g.size) :
      Grown (g.push (.leaf name) h)
  | binary {g : Graph} {name : String} {op : Opcode} {lhs rhs : NodeId} (tail : Grown g)
      (hname : g.lookup name = none) (hop : op.isBinary = true)
      (h : ∀ operand ∈ (Node.binary name op lhs rhs).operands, operand < g.size) :
      Grown ((g.push (.binary name op lhs rhs) h).withRoot g.size)
  | root {g : Graph} {id lhs rhs : NodeId} {name : String} {op : Opcode} (tail : Grown g)
      (hnode : g.node? id = some (.binary name op lhs rhs)) : Grown (g.withRoot id)

section Building

variable {program : Program} {options : BuildOptions} {g g' : Graph}

theorem Grown.declare (hg : g.Grown) {name : String} (h : declare program g name = .ok g') :
    g'.Grown := by
  obtain ⟨hname, -, hoperands, rfl⟩ := declare_eq_ok_iff.mp h
  exact hg.leaf hname hoperands

theorem Grown.resolve (hg : g.Grown) {index : Nat} {name : String} {id : NodeId}
    (h : resolve program options index g name = .ok (id, g')) : g'.Grown := by
  rcases resolve_eq_ok_iff.mp h with ⟨-, rfl⟩ | ⟨hname, -, -, -, hoperands, rfl⟩
  · exact hg
  · exact hg.leaf hname hoperands

theorem Grown.define (hg : g.Grown) {index : Nat} {insn : Instruction} {lhs rhs : NodeId}
    (h : define options index g insn lhs rhs = .ok g') : g'.Grown := by
  rcases define_eq_ok_iff.mp h with ⟨id, name, -, -, hnode, rfl⟩ | ⟨hdst, hop, hoperands, rfl⟩
  · exact hg.root hnode
  · exact hg.binary hdst hop hoperands

theorem Grown.addInstructions (hg : g.Grown) {index : Nat} {insns : List Instruction}
    (h : addInstructions program options index g insns = .ok g') : g'.Grown := by
  induction insns generalizing g index with
  | nil =>
    obtain rfl := Except.ok.inj h
    exact hg
  | cons insn insns ih =>
    obtain ⟨g₃, hadd, hrest⟩ := Result.bind_eq_ok_iff.mp h
    obtain ⟨-, lhs, g₁, rhs, g₂, hlhs, hrhs, hdefine⟩ := addInstruction_eq_ok_iff.mp hadd
    have hoperands : g₂.Grown := (hg.resolve hlhs).resolve hrhs
    exact ih (hoperands.define hdefine) hrest

end Building

theorem Constructed.grown {g : Graph} (h : g.Constructed) : g.Grown := by
  induction h with
  | empty => exact .empty
  | build hbuild =>
    obtain ⟨g₁, hdeclared, hadded⟩ := Result.bind_eq_ok_iff.mp hbuild
    have hinputs : g₁.Grown :=
      Result.foldlM_kept (fun _ _ _ hg hdeclare => Grown.declare hg hdeclare) .empty hdeclared
    exact hinputs.addInstructions hadded
  | leaf _ hadd ih =>
    obtain ⟨hname, hoperands, hadded⟩ := leaf_eq_ok_iff.mp hadd
    cases hadded
    exact ih.leaf hname hoperands
  | binary _ hadd ih =>
    obtain ⟨hop, hname, hoperands, hadded⟩ := binary_eq_ok_iff.mp hadd
    cases hadded
    exact ih.binary hname hop hoperands

/-- The nodes of a graph are leaves and applications of binary opcodes. -/
theorem Grown.isBinary {g : Graph} (hg : g.Grown) {id lhs rhs : NodeId} {name : String} {op : Opcode}
    (hnode : g.node? id = some (.binary name op lhs rhs)) : op.isBinary = true := by
  induction hg with
  | empty => simp [node?, vertex?, Graph.empty] at hnode
  | leaf _ _ h ih =>
    rw [node?_push] at hnode
    split at hnode
    · cases hnode
    · exact ih hnode
  | @binary g name' op' lhs' rhs' _ _ hop h ih =>
    have hpush : (g.push (.binary name' op' lhs' rhs') h).node? id =
        some (.binary name op lhs rhs) := hnode
    rw [node?_push] at hpush
    split at hpush
    · cases hpush
      exact hop
    · exact ih hpush
  | root _ _ ih => exact ih hnode

end TileSelect.Graph
