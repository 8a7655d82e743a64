import TileSelect.Proofs.CoverOrder
import TileSelect.Proofs.GraphEvaluation
import Mathlib.Data.List.Forall2
import Mathlib.Logic.Function.Basic

/-! # Executing a cover

An instance is executed by walking its pattern from its node.  Where the pattern has a free slot the operand is
read from a store of values computed before; where it asks for something the walk goes into the operand; and
every node on the way applies its own opcode.  The value is then stored at the node of the instance.  Executing
the cover of a selection from an empty store never misses a value, reads and enters exactly what the instances
say, and leaves in the store the values of the nodes. -/
namespace TileSelect

universe u

variable {V : Type u}

abbrev Store (V : Type u) := NodeId → Option V

/-- A value, with the operands read from the store and those gone into, in order. -/
structure Computation (V : Type u) where
  value : V
  reads : List NodeId
  entered : List NodeId

/-- Applies the opcode of a node to what its two slots give; a leaf has its own value, and no slots. -/
def Interpretation.compute (m : Interpretation V) (g : Graph) (id : NodeId) (isLeaf : Bool)
    (left right : NodeId → Option (Computation V)) : Option (Computation V) :=
  match g.node? id with
  | none => none
  | some (.leaf name) => if isLeaf then some ⟨m.leaf name, [], []⟩ else none
  | some (.binary _ op lhs rhs) => do
    let l ← left lhs
    let r ← right rhs
    some ⟨m.apply op l.value r.value, l.reads ++ r.reads, l.entered ++ r.entered⟩

/-- What a slot of a pattern gives at an operand. -/
def Shape.compute (g : Graph) (m : Interpretation V) (store : Store V) :
    Shape → NodeId → Option (Computation V)
  | .free, operand => (store operand).map fun value => ⟨value, [operand], []⟩
  | .node _ left right, operand =>
    (m.compute g operand (left.isFree && right.isFree) (left.compute g m store)
      (right.compute g m store)).map fun c => { c with entered := operand :: c.entered }

def Pattern.compute (g : Graph) (m : Interpretation V) (store : Store V) (p : Pattern)
    (id : NodeId) : Option (Computation V) :=
  m.compute g id p.isLeaf (p.left.compute g m store) (p.right.compute g m store)

/-- Executes instances one after another, storing each value at the node of its instance. -/
def execute (g : Graph) (m : Interpretation V) :
    Store V → List Instance → Option (List (Computation V) × Store V)
  | store, [] => some ([], store)
  | store, i :: instances => do
    let c ← i.tile.pattern.compute g m store i.node
    let (cs, store) ← execute g m (Function.update store i.node (some c.value)) instances
    some (c :: cs, store)

/-- Everything in the store is the value of its node. -/
def Faithful (g : Graph) (m : Interpretation V) (store : Store V) : Prop :=
  ∀ id v, store id = some v → g.eval m id = some v

/-- A slot that has a boundary finds what it reads and computes the value of its operand. -/
theorem Shape.exists_compute {g : Graph} {m : Interpretation V} {store : Store V}
    (hstore : Faithful g m store) {shape : Shape} {id : NodeId} {b : Boundary}
    (hb : shape.boundary g id = .ok b) (hreads : ∀ input ∈ b.inputs, ∃ v, store input = some v) :
    ∃ c, shape.compute g m store id = some c ∧ c.reads = b.inputs ∧
      c.entered = shape.taken id ++ b.interior ∧ g.eval m id = some c.value := by
  induction shape generalizing id b with
  | free =>
    obtain rfl : ⟨[id], []⟩ = b := Except.ok.inj hb
    obtain ⟨v, hv⟩ := hreads id List.mem_cons_self
    exact ⟨⟨v, [id], []⟩, by rw [Shape.compute, hv]; rfl, rfl, rfl, hstore id v hv⟩
  | node op left right ihl ihr =>
    rcases Shape.boundary_node_eq_ok_iff.mp hb with
      ⟨name, hnode, hleft, hright, rfl⟩ | ⟨name, op', lhs, rhs, l, r, hnode, hl, hr, rfl⟩
    · refine ⟨⟨m.leaf name, [], [id]⟩, ?_, rfl, rfl, Graph.eval_leaf m hnode⟩
      simp [Shape.compute, Interpretation.compute, hnode, hleft, hright]
    · obtain ⟨cl, hcl, hclreads, hclentered, hclvalue⟩ :=
        ihl hl fun input hinput => hreads input (List.mem_append_left _ hinput)
      obtain ⟨cr, hcr, hcrreads, hcrentered, hcrvalue⟩ :=
        ihr hr fun input hinput => hreads input (List.mem_append_right _ hinput)
      refine ⟨⟨m.apply op' cl.value cr.value, cl.reads ++ cr.reads,
        id :: (cl.entered ++ cr.entered)⟩, ?_, ?_, ?_, Graph.eval_binary m hnode hclvalue hcrvalue⟩
      · simp [Shape.compute, Interpretation.compute, hnode, hcl, hcr]
      · rw [hclreads, hcrreads]
      · rw [hclentered, hcrentered]
        rfl

/-- A pattern that has a boundary reads its inputs, enters its interior and computes the value of the node. -/
theorem Pattern.exists_compute {g : Graph} {m : Interpretation V} {store : Store V}
    (hstore : Faithful g m store) {p : Pattern} {id : NodeId} {b : Boundary}
    (hb : p.boundary g id = .ok b) (hreads : ∀ input ∈ b.inputs, ∃ v, store input = some v) :
    ∃ c, p.compute g m store id = some c ∧ c.reads = b.inputs ∧ c.entered = b.interior ∧
      g.eval m id = some c.value := by
  obtain ⟨d, hd, hdreads, hdentered, hdvalue⟩ := Shape.exists_compute hstore hb hreads
  obtain ⟨c, hc, rfl⟩ := Option.map_eq_some_iff.mp hd
  exact ⟨c, hc, hdreads, (List.cons.inj hdentered).2, hdvalue⟩

theorem Faithful.update {g : Graph} {m : Interpretation V} {store : Store V} {id : NodeId} {v : V}
    (h : Faithful g m store) (hv : g.eval m id = some v) :
    Faithful g m (Function.update store id (some v)) := by
  intro n w hw
  by_cases hn : n = id
  · subst hn
    rw [Function.update_self] at hw
    rw [hv, hw]
  · rw [Function.update_of_ne hn] at hw
    exact h n w hw

/-- Instances in dependency order are executed to the end, given the values of those before them. -/
theorem exists_execute {s : Selection} {m : Interpretation V} {before rest : List Instance}
    (hselects : ∀ i ∈ rest, s.Selects i) (hfirst : Selection.InputsFirst (before ++ rest))
    {store : Store V} (hstore : Faithful s.graph m store)
    (hbefore : ∀ n ∈ before.map Instance.node, ∃ v, store n = some v) :
    ∃ computations store', execute s.graph m store rest = some (computations, store') ∧
      List.Forall₂ (fun i c => c.reads = i.inputs ∧ c.entered = i.covered ∧
        s.graph.eval m i.node = some c.value) rest computations ∧
      Faithful s.graph m store' ∧
      ∀ n ∈ (before ++ rest).map Instance.node, ∃ v, store' n = some v := by
  induction rest generalizing before store with
  | nil => exact ⟨[], store, rfl, .nil, hstore, by simpa using hbefore⟩
  | cons i rest ih =>
    have hreads : ∀ input ∈ i.inputs, ∃ v, store input = some v := fun input hinput =>
      hbefore input (hfirst before i rest rfl input hinput)
    obtain ⟨c, hc, hcreads, hcentered, hcvalue⟩ :=
      Pattern.exists_compute hstore (hselects i List.mem_cons_self).2 hreads
    have hsplit : before ++ i :: rest = before ++ [i] ++ rest := by simp
    have hbefore' : ∀ n ∈ (before ++ [i]).map Instance.node,
        ∃ v, Function.update store i.node (some c.value) n = some v := by
      intro n hn
      by_cases hni : n = i.node
      · exact ⟨c.value, by rw [hni, Function.update_self]⟩
      · rw [Function.update_of_ne hni]
        exact hbefore n (by simpa [hni] using hn)
    rw [hsplit] at hfirst ⊢
    obtain ⟨cs, store', hexecute, hall, hstore', hvalues⟩ :=
      ih (fun j hj => hselects j (List.mem_cons_of_mem _ hj)) hfirst (hstore.update hcvalue) hbefore'
    refine ⟨c :: cs, store', ?_, .cons ⟨hcreads, hcentered, hcvalue⟩ hall, hstore', hvalues⟩
    simp [execute, hc, hexecute]

/-- Executing the cover of a selection from an empty store finds every value it reads, reads the inputs and enters
the covered nodes of each instance, computes the value of its node, and ends with the value of the root. -/
theorem execute_cover (m : Interpretation V) {g : Graph} {root : NodeId} {catalog : Catalog}
    {s : Selection} (h : Selection.select g root catalog = .ok s) :
    ∃ instances computations store, s.cover = .ok instances ∧
      execute g m (fun _ => none) instances = some (computations, store) ∧
      List.Forall₂ (fun i c => c.reads = i.inputs ∧ c.entered = i.covered ∧
        g.eval m i.node = some c.value) instances computations ∧
      (∀ id v, store id = some v → g.eval m id = some v) ∧
      ∃ v, g.eval m root = some v ∧ store root = some v := by
  obtain ⟨instances, hcover, hselects, hfirst, -, -, hroot⟩ := Selection.exists_cover h
  obtain rfl : s.graph = g := (Selection.visited_of_select h).graph
  have hempty : Faithful s.graph m (fun _ => none) := fun _ _ hv => by cases hv
  have hfirst : Selection.InputsFirst ([] ++ instances) := hfirst
  obtain ⟨computations, store, hexecute, hall, hstore, hvalues⟩ :=
    exists_execute hselects hfirst hempty (by simp)
  obtain ⟨v, hv⟩ := hvalues root hroot
  exact ⟨instances, computations, store, hcover, hexecute, hall, hstore, v, hstore root v hv, hv⟩

theorem execute_cover_productTwice :
    let m := Interpretation.integers fun name => if name = "a" then 2 else 3
    ∃ s, Selection.select Selection.productTwice 3 .standard = .ok s ∧
      ∃ instances computations store, s.cover = .ok instances ∧
        execute Selection.productTwice m (fun _ => none) instances = some (computations, store) ∧
        store 3 = some 12 := by
  intro m
  obtain ⟨s, hs⟩ := Selection.exists_select_productTwice
  obtain ⟨instances, computations, store, hcover, hexecute, -, -, v, hv, hroot⟩ :=
    execute_cover m hs
  have hvalue : Selection.productTwice.eval m 3 = some 12 := by
    decide +kernel
  exact ⟨s, hs, instances, computations, store, hcover, hexecute,
    hroot.trans (hv.symm.trans hvalue)⟩

end TileSelect
