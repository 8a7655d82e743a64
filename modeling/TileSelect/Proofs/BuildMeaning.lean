import TileSelect.Proofs.GraphGrowth
import Mathlib.Logic.Function.Basic

/-! # Building keeps the meaning of a program

A program can be executed one instruction after another on a store of values by name, in which every instruction
overwrites its destination.  Its graph has no stores and no order.  After every prefix of the program the two agree
on all names: a bound name has the value of its node, and a name that is not bound was never written.  A
destination that is defined a second time in the same way is overwritten with the value it has. -/
namespace TileSelect

universe u

variable {V : Type u}

def Instruction.execute (m : Interpretation V) (store : String → V) (insn : Instruction) :
    String → V :=
  Function.update store insn.dst (m.apply insn.op (store insn.lhs) (store insn.rhs))

/-- Executes the instructions of a program in order, from the values of the leaves. -/
def Program.run (m : Interpretation V) (program : Program) : String → V :=
  program.instructions.foldl (Instruction.execute m) m.leaf

namespace Graph

/-- A graph and a store give every name the same value. -/
structure Agrees (m : Interpretation V) (g : Graph) (store : String → V) : Prop where
  bound : ∀ {name id}, g.lookup name = some id → g.eval m id = some (store name)
  unbound : ∀ {name}, g.lookup name = none → store name = m.leaf name

variable {m : Interpretation V} {g g' : Graph} {store : String → V}

theorem agrees_empty (m : Interpretation V) : Agrees m empty m.leaf where
  bound := by simp
  unbound _ := rfl

theorem Agrees.withRoot (hg : Agrees m g store) (root : NodeId) :
    Agrees m (g.withRoot root) store := by
  constructor
  · intro name id hname
    rw [lookup_withRoot] at hname
    rw [eval_withRoot m root (lt_size_of_eval (hg.bound hname))]
    exact hg.bound hname
  · intro name hname
    exact hg.unbound hname

/-- A new node keeps the agreement if the store is changed to its value under its name, and nowhere else. -/
theorem Agrees.push (hg : Agrees m g store) {node : Node}
    (h : ∀ operand ∈ node.operands, operand < g.size) {v : V}
    (hv : (g.push node h).eval m g.size = some v) :
    Agrees m (g.push node h) (Function.update store node.name v) := by
  constructor
  · intro name id hid
    by_cases hnew : name = node.name
    · rw [hnew, lookup_push_self h] at hid
      rw [← Option.some.inj hid, hv, hnew, Function.update_self]
    · rw [lookup_push_of_ne h hnew] at hid
      rw [eval_push_of_lt h m (lt_size_of_eval (hg.bound hid)), Function.update_of_ne hnew]
      exact hg.bound hid
  · intro name hid
    have hnew : name ≠ node.name := by
      rintro rfl
      rw [lookup_push_self h] at hid
      cases hid
    rw [lookup_push_of_ne h hnew] at hid
    rw [Function.update_of_ne hnew]
    exact hg.unbound hid

/-- A leaf was never written, so that it has the value the store has already. -/
theorem Agrees.push_leaf (hg : Agrees m g store) {name : String}
    (h : ∀ operand ∈ (Node.leaf name).operands, operand < g.size) (hname : g.lookup name = none) :
    Agrees m (g.push (.leaf name) h) store := by
  have hpush := hg.push h (eval_leaf m (node?_push_size h))
  have hsame : Function.update store name (m.leaf name) = store := by
    rw [← hg.unbound hname, Function.update_eq_self]
  rwa [Node.name, hsame] at hpush

theorem Agrees.declare (hg : Agrees m g store) {program : Program} {name : String}
    (h : declare program g name = .ok g') : Agrees m g' store := by
  obtain ⟨hname, -, hoperands, rfl⟩ := declare_eq_ok_iff.mp h
  exact hg.push_leaf hoperands hname

theorem Agrees.declare_all (hg : Agrees m g store) {program : Program} {names : List String}
    (h : names.foldlM (Graph.declare program) g = .ok g') : Agrees m g' store :=
  Result.foldlM_kept (P := fun g => Agrees m g store) (fun _ _ _ hstep => hstep.declare) hg h

section Instructions

variable {program : Program} {options : BuildOptions} {index : Nat}

/-- Resolving a name keeps the agreement and every binding, and binds the name. -/
theorem Agrees.resolve (hg : Agrees m g store) {name : String} {id : NodeId}
    (h : resolve program options index g name = .ok (id, g')) :
    Agrees m g' store ∧ g'.lookup name = some id ∧
      ∀ other n, g.lookup other = some n → g'.lookup other = some n := by
  rcases resolve_eq_ok_iff.mp h with ⟨hname, rfl⟩ | ⟨hname, -, -, rfl, hoperands, rfl⟩
  · exact ⟨hg, hname, fun _ _ hother => hother⟩
  · exact ⟨hg.push_leaf hoperands hname, lookup_push_self hoperands,
      fun _ _ hother => lookup_push_of_eq_some hoperands hname hother⟩

/-- Defining the destination follows the execution of the instruction and makes the destination the root. -/
theorem Agrees.define (hg : Agrees m g store) {insn : Instruction} {lhs rhs : NodeId}
    (hlhs : g.lookup insn.lhs = some lhs) (hrhs : g.lookup insn.rhs = some rhs)
    (h : define options index g insn lhs rhs = .ok g') :
    Agrees m g' (insn.execute m store) ∧ ∃ root, g'.root = some root ∧
      g'.lookup insn.dst = some root := by
  have hl := hg.bound hlhs
  have hr := hg.bound hrhs
  rcases define_eq_ok_iff.mp h with
    ⟨id, name, hdst, -, hnode, rfl⟩ | ⟨-, -, hoperands, rfl⟩
  · -- The node of the destination has the operands of the instruction, and so its value.
    have hvalue := eval_binary m hnode hl hr
    have hsame : store insn.dst = m.apply insn.op (store insn.lhs) (store insn.rhs) :=
      Option.some.inj ((hg.bound hdst).symm.trans hvalue)
    rw [Instruction.execute, ← hsame, Function.update_eq_self]
    exact ⟨hg.withRoot id, id, rfl, hdst⟩
  · have hl' := (eval_push_of_lt hoperands m (lt_size_of_eval hl)).trans hl
    have hr' := (eval_push_of_lt hoperands m (lt_size_of_eval hr)).trans hr
    have hvalue := eval_binary m (node?_push_size hoperands) hl' hr'
    exact ⟨(hg.push hoperands hvalue).withRoot g.size, g.size, rfl, lookup_push_self hoperands⟩

theorem Agrees.addInstruction (hg : Agrees m g store) {insn : Instruction}
    (h : addInstruction program options index g insn = .ok g') :
    Agrees m g' (insn.execute m store) ∧ ∃ root, g'.root = some root ∧
      g'.lookup insn.dst = some root := by
  obtain ⟨-, lhs, g₁, rhs, g₂, hlhs, hrhs, hdefine⟩ := addInstruction_eq_ok_iff.mp h
  obtain ⟨hg₁, hlookup, -⟩ := hg.resolve hlhs
  obtain ⟨hg₂, hrlookup, hkept⟩ := hg₁.resolve hrhs
  exact hg₂.define (hkept _ _ hlookup) hrlookup hdefine

theorem Agrees.addInstructions (hg : Agrees m g store) {insns : List Instruction}
    (h : addInstructions program options index g insns = .ok g') :
    Agrees m g' (insns.foldl (Instruction.execute m) store) ∧
      ∀ insn, insns.getLast? = some insn → ∃ root, g'.root = some root ∧
        g'.lookup insn.dst = some root := by
  induction insns generalizing index g store with
  | nil =>
    obtain rfl := Except.ok.inj h
    exact ⟨hg, by simp⟩
  | cons first rest ih =>
    obtain ⟨g₁, hfirst, hrest⟩ := Result.bind_eq_ok_iff.mp h
    obtain ⟨hg₁, hroot⟩ := hg.addInstruction hfirst
    obtain ⟨hg', hlast⟩ := ih hg₁ hrest
    refine ⟨hg', fun insn hinsn => ?_⟩
    cases rest with
    | nil =>
      obtain rfl := Except.ok.inj hrest
      obtain rfl := Option.some.inj hinsn
      exact hroot
    | cons second rest => exact hlast insn (by simpa using hinsn)

end Instructions

/-- Executing a program ends with the value of its node at every name of its graph, and the root has the value of
the destination of the last instruction. -/
theorem build_preserves_meaning (m : Interpretation V) {program : Program} {options : BuildOptions}
    {g : Graph} (h : build program options = .ok g) :
    (∀ name id, g.lookup name = some id → g.eval m id = some (program.run m name)) ∧
      ∀ insn, program.instructions.getLast? = some insn → ∃ root, g.root = some root ∧
        g.lookup insn.dst = some root ∧ g.eval m root = some (program.run m insn.dst) := by
  obtain ⟨g₀, hinputs, hinsns⟩ := Result.bind_eq_ok_iff.mp h
  obtain ⟨hg, hlast⟩ := ((agrees_empty m).declare_all hinputs).addInstructions hinsns
  refine ⟨fun name id hname => hg.bound hname, fun insn hinsn => ?_⟩
  obtain ⟨root, hroot, hdst⟩ := hlast insn hinsn
  exact ⟨root, hroot, hdst, hg.bound hdst⟩

/-- A program that defines `t` a second time in the same way, after using it. -/
def productRepeated : Program where
  inputs := ["a"]
  instructions := [⟨.mul, "t", "a", "b"⟩, ⟨.add, "u", "t", "t"⟩, ⟨.mul, "t", "a", "b"⟩]

theorem build_preserves_meaning_productRepeated :
    let m := Interpretation.integers fun name => if name = "a" then 2 else 3
    ∃ g, build productRepeated { reuse := true } = .ok g ∧
      ∃ root, g.root = some root ∧ g.lookup "t" = some root ∧ g.eval m root = some 6 := by
  intro m
  obtain ⟨g, hg⟩ : ∃ g, build productRepeated { reuse := true } = .ok g := ⟨_, rfl⟩
  obtain ⟨root, hroot, hlookup, hvalue⟩ := (build_preserves_meaning m hg).2 ⟨.mul, "t", "a", "b"⟩ rfl
  have hrun : productRepeated.run m "t" = 6 := by
    rfl
  rw [hrun] at hvalue
  exact ⟨g, hg, root, hroot, hlookup, hvalue⟩

end Graph
end TileSelect
