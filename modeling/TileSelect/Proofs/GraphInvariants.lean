import TileSelect.Proofs.BuildLayout
import TileSelect.Proofs.GraphConstruction

/-! # What holds of every table of nodes

A node is asked for by itself: as a leaf under a name, or as a binary opcode applied to two numbers.  The graph
refuses the request and is left as it was, or it takes the node in as its last one and binds its name.  Everything
that the rest of the library takes for granted about graphs is kept when a node is taken in and when building moves
the root to a binary node that is there, so it holds of every graph, in whatever way it was made. -/
namespace TileSelect.Graph

def ask (g : Graph) : Node → Except Fault NodeId × Graph
  | .leaf name => g.addLeaf name
  | .binary name op lhs rhs => g.addBinary name op lhs rhs

def after (g : Graph) (request : Node) : Graph := (g.ask request).2

def afterAll (g : Graph) (requests : List Node) : Graph := requests.foldl after g

/-- The name is new, the opcode takes as many operands as there are, and the operands are in the graph. -/
structure Admits (g : Graph) (request : Node) : Prop where
  unbound : g.lookup request.name = none
  binary : request.isLeaf = false → request.opcode.isBinary = true
  operands : ∀ operand ∈ request.operands, operand < g.size

/-- All that happens to a graph that takes a node in. -/
structure Adds (g : Graph) (request : Node) (g' : Graph) : Prop where
  admits : g.Admits request
  vertices : g'.vertices = g.vertices.push ⟨g.size, request⟩
  lookup : ∀ name, g'.lookup name = if name = request.name then some g.size else g.lookup name
  root : g'.root = if request.isLeaf then g.root else some g.size

theorem adds_leaf {g : Graph} {name : String} (hname : g.lookup name = none)
    (h : ∀ operand ∈ (Node.leaf name).operands, operand < g.size) :
    Adds g (.leaf name) (g.push (.leaf name) h) :=
  ⟨⟨hname, nofun, h⟩, rfl, lookup_push h, rfl⟩

theorem adds_binary {g : Graph} {name : String} {op : Opcode} {lhs rhs : NodeId}
    (hname : g.lookup name = none) (hop : op.isBinary = true)
    (h : ∀ operand ∈ (Node.binary name op lhs rhs).operands, operand < g.size) :
    Adds g (.binary name op lhs rhs) ((g.push (.binary name op lhs rhs) h).withRoot g.size) :=
  ⟨⟨hname, fun _ => hop, h⟩, rfl, lookup_push h, rfl⟩

theorem add_cases (g : Graph) (node : Node) (h : ∀ operand ∈ node.operands, operand < g.size) :
    (g.lookup node.name ≠ none ∧ g.add node h = (.error (.nameBound node.name), g)) ∨
      (g.lookup node.name = none ∧ g.add node h = (.ok g.size, g.push node h)) := by
  unfold add
  cases g.lookup node.name with
  | some id => exact .inl ⟨nofun, rfl⟩
  | none => exact .inr ⟨rfl, rfl⟩

/-- A request is refused and leaves the graph as it was, or its node is taken in under the next number. -/
theorem ask_cases (g : Graph) (request : Node) :
    (¬ g.Admits request ∧ ∃ fault, g.ask request = (.error fault, g)) ∨
      ∃ g', g.ask request = (.ok g.size, g') ∧ Adds g request g' := by
  cases request with
  | leaf name =>
    have hoperands : ∀ operand ∈ (Node.leaf name).operands, operand < g.size := nofun
    rcases add_cases g (.leaf name) hoperands with ⟨hbound, hadd⟩ | ⟨hname, hadd⟩
    · exact .inl ⟨fun h => hbound h.unbound, _, hadd⟩
    · exact .inr ⟨_, hadd, adds_leaf hname hoperands⟩
  | binary name op lhs rhs =>
    rw [ask, addBinary]
    by_cases hop : op.isBinary = true
    case neg =>
      rw [if_pos (by simpa using hop)]
      exact .inl ⟨fun h => hop (h.binary rfl), _, rfl⟩
    rw [if_neg (by simpa using hop)]
    by_cases hlt : lhs < g.size ∧ rhs < g.size
    case neg =>
      rw [dif_neg hlt]
      refine .inl ⟨fun h => hlt ?_, _, rfl⟩
      exact ⟨h.operands lhs (by simp [Node.operands]), h.operands rhs (by simp [Node.operands])⟩
    have hoperands : ∀ operand ∈ (Node.binary name op lhs rhs).operands, operand < g.size :=
      Node.forall_operands_lt hlt
    rw [dif_pos hlt]
    rcases add_cases g _ hoperands with ⟨hbound, hadd⟩ | ⟨hname, hadd⟩
    · rw [hadd]
      exact .inl ⟨fun h => hbound h.unbound, _, rfl⟩
    · rw [hadd]
      exact .inr ⟨_, rfl, adds_binary hname hop hoperands⟩

theorem after_cases (g : Graph) (request : Node) :
    g.after request = g ∨ (g.ask request).1 = .ok g.size ∧ Adds g request (g.after request) := by
  unfold after
  rcases ask_cases g request with ⟨-, fault, hask⟩ | ⟨g', hask, hadds⟩
  · exact .inl (by rw [hask])
  · rw [hask]
    exact .inr ⟨rfl, hadds⟩

/-- What every single request keeps is kept by any number of them. -/
theorem afterAll_of_after {P : Graph → Prop} (hstep : ∀ g request, P g → P (g.after request))
    {g : Graph} (hg : P g) (requests : List Node) : P (g.afterAll requests) := by
  induction requests generalizing g with
  | nil => exact hg
  | cons request requests ih => exact ih (hstep g request hg)

namespace Adds

variable {g g' : Graph} {request : Node}

theorem vertex? (h : Adds g request g') (id : NodeId) :
    g'.vertex? id = if id = g.size then some ⟨g.size, request⟩ else g.vertex? id := by
  rw [Graph.vertex?, h.vertices]
  exact Array.getElem?_push

theorem node? (h : Adds g request g') (id : NodeId) :
    g'.node? id = if id = g.size then some request else g.node? id := by
  rw [Graph.node?, h.vertex?]
  split <;> rfl

theorem keeps (h : Adds g request g') : Keeps g g' := by
  constructor
  · intro name id hname
    have hne : name ≠ request.name := by
      rintro rfl
      cases h.admits.unbound.symm.trans hname
    rw [h.lookup, if_neg hne, hname]
  · intro id vertex hvertex
    rw [h.vertex?, if_neg (Nat.ne_of_lt (lt_size_of_vertex? hvertex))]
    exact hvertex

end Adds

theorem Keeps.trans {g g' g'' : Graph} (h : Keeps g g') (h' : Keeps g' g'') : Keeps g g'' :=
  ⟨fun hname => h'.lookup (h.lookup hname), fun hvertex => h'.vertex? (h.vertex? hvertex)⟩

theorem keeps_after (g : Graph) (request : Node) : Keeps g (g.after request) := by
  rcases after_cases g request with hafter | ⟨-, hadds⟩
  · rw [hafter]
    exact .refl g
  · exact hadds.keeps

theorem keeps_afterAll (g : Graph) (requests : List Node) : Keeps g (g.afterAll requests) :=
  afterAll_of_after (fun g' request h => h.trans (keeps_after g' request)) (.refl g) requests

/-- What holds of the empty graph, and is kept by taking a node in and by moving the root to a binary node, holds
of every graph that can be made. -/
theorem Grown.induct {P : Graph → Prop} (hempty : P Graph.empty)
    (hadds : ∀ g request g', P g → Adds g request g' → P g')
    (hroot : ∀ g id node, P g → g.node? id = some node → node.isLeaf = false → P (g.withRoot id))
    {g : Graph} (hg : g.Grown) : P g := by
  induction hg with
  | empty => exact hempty
  | leaf _ hname h ih => exact hadds _ _ _ ih (adds_leaf hname h)
  | binary _ hname hop h ih => exact hadds _ _ _ ih (adds_binary hname hop h)
  | root _ hnode ih => exact hroot _ _ _ ih hnode rfl

theorem Constructed.after {g : Graph} (hg : g.Constructed) (request : Node) :
    (g.after request).Constructed := by
  rcases after_cases g request with hafter | ⟨hanswer, -⟩
  · rw [hafter]
    exact hg
  · -- an answered request is a step of making a graph
    have hask : g.ask request = (.ok g.size, g.after request) := Prod.ext hanswer rfl
    cases request with
    | leaf name => exact hg.leaf (congrArg answered hask)
    | binary name op lhs rhs => exact hg.binary (congrArg answered hask)

theorem Constructed.afterAll {g : Graph} (hg : g.Constructed) (requests : List Node) :
    (g.afterAll requests).Constructed :=
  afterAll_of_after (fun _ request h => h.after request) hg requests

theorem Grown.consistent {g : Graph} (hg : g.Grown) : g.Consistent := by
  induction hg with
  | empty => exact consistent_empty
  | leaf _ hname h ih => exact ih.push h hname
  | binary _ hname _ h ih => exact (ih.push h hname).withRoot _
  | root _ _ ih => exact ih.withRoot _

/-- There is a root as soon as there is a binary node, and the root is one. -/
structure Rooted (g : Graph) : Prop where
  absent : g.root = none ↔ ∀ id node, g.node? id = some node → node.isLeaf = true
  binary : ∀ id, g.root = some id → ∃ node, g.node? id = some node ∧ node.isLeaf = false

theorem rooted_of_root {g : Graph} {id : NodeId} {node : Node} (hroot : g.root = some id)
    (hnode : g.node? id = some node) (hbinary : node.isLeaf = false) : g.Rooted := by
  constructor
  · rw [hroot]
    constructor
    · intro hnone
      cases hnone
    · intro hall
      cases hbinary.symm.trans (hall id node hnode)
  · intro found hfound
    obtain rfl := Option.some.inj (hroot.symm.trans hfound)
    exact ⟨node, hnode, hbinary⟩

theorem Rooted.adds {g g' : Graph} {request : Node} (h : g.Rooted) (hadds : Adds g request g') :
    g'.Rooted := by
  cases hleaf : request.isLeaf with
  | true =>
    have hroot : g'.root = g.root := by rw [hadds.root, if_pos hleaf]
    constructor
    · rw [hroot, h.absent]
      constructor
      · intro hall id node hnode
        rw [hadds.node?] at hnode
        split at hnode
        · exact Option.some.inj hnode ▸ hleaf
        · exact hall id node hnode
      · intro hall id node hnode
        exact hall id node (hadds.keeps.node? hnode)
    · intro id hid
      obtain ⟨node, hnode, hbinary⟩ := h.binary id (hroot ▸ hid)
      exact ⟨node, hadds.keeps.node? hnode, hbinary⟩
  | false =>
    have hroot : g'.root = some g.size := by rw [hadds.root, hleaf, if_neg Bool.false_ne_true]
    have hnew : g'.node? g.size = some request := by rw [hadds.node?, if_pos rfl]
    exact rooted_of_root hroot hnew hleaf

theorem Grown.rooted {g : Graph} (hg : g.Grown) : g.Rooted := by
  refine hg.induct ?_ ?_ ?_
  · constructor
    · simp [Graph.empty, node?, vertex?]
    · intro id hid
      cases hid
  · exact fun _ _ _ h hadds => h.adds hadds
  · intro g id node _ hnode hbinary
    exact rooted_of_root rfl hnode hbinary

/-- No binary node comes after the root. -/
def RootLast (g : Graph) : Prop :=
  ∀ id, g.root = some id → ∀ later node, id < later → g.node? later = some node → node.isLeaf = true

theorem RootLast.after {g : Graph} (h : g.RootLast) (request : Node) : (g.after request).RootLast := by
  rcases after_cases g request with hafter | ⟨-, hadds⟩
  · rw [hafter]
    exact h
  · intro id hid later node hlater hnode
    rw [hadds.root] at hid
    rw [hadds.node?] at hnode
    split at hid
    · next hleaf =>
      split at hnode
      · exact Option.some.inj hnode ▸ hleaf
      · exact h id hid later node hlater hnode
    · -- the new node is the root and the last of all
      obtain rfl := Option.some.inj hid
      rw [if_neg (Nat.ne_of_gt hlater)] at hnode
      exact absurd (lt_size_of_node? hnode) (Nat.lt_asymm hlater)

theorem rootLast_afterAll (requests : List Node) : (empty.afterAll requests).RootLast := by
  have hempty : empty.RootLast := by
    intro id hid
    cases hid
  exact afterAll_of_after (P := RootLast) (fun _ request h => h.after request) hempty requests

/-- Nodes stand at the places of the numbers they carry, without gaps.  Each is a reference without operands or
applies a binary opcode to two earlier nodes, so no node is under itself.  Names tell nodes apart and are bound to
them, and the root is a binary node if there is one. -/
structure Sound (g : Graph) : Prop where
  numbered : ∀ id, (∃ node, g.vertex? id = some ⟨id, node⟩) ↔ id < g.size
  formed : ∀ id node, g.node? id = some node →
    (node.opcode = .ref ∧ node.operands = []) ∨
    ((node.opcode = .add ∨ node.opcode = .mul ∨ node.opcode = .sub) ∧
      ∃ lhs rhs, node.operands = [lhs, rhs] ∧ lhs < id ∧ rhs < id)
  acyclic : ∀ id operand, g.Uses id operand → ¬ g.Reaches operand id
  distinct : ∀ id id' node node', g.node? id = some node → g.node? id' = some node' → id ≠ id' →
    node.name ≠ node'.name
  named : ∀ name id, g.lookup name = some id ↔ ∃ node, g.node? id = some node ∧ node.name = name
  rootless : g.root = none ↔ ∀ id node, g.node? id = some node → node.operands = []
  rooted : ∀ id, g.root = some id → ∃ node, g.node? id = some node ∧ node.operands ≠ []

theorem isLeaf_iff {node : Node} : node.isLeaf = true ↔ node.operands = [] := by
  cases node <;> simp [Node.isLeaf, Node.operands]

theorem Grown.formed {g : Graph} (hg : g.Grown) {id : NodeId} {node : Node}
    (hnode : g.node? id = some node) :
    (node.opcode = .ref ∧ node.operands = []) ∨
    ((node.opcode = .add ∨ node.opcode = .mul ∨ node.opcode = .sub) ∧
      ∃ lhs rhs, node.operands = [lhs, rhs] ∧ lhs < id ∧ rhs < id) := by
  cases node with
  | leaf name => exact .inl ⟨rfl, rfl⟩
  | binary name op lhs rhs =>
    have hop := Opcode.isBinary_iff.mp (hg.isBinary hnode)
    exact .inr ⟨hop, lhs, rhs, rfl, lt_of_node? hnode⟩

theorem Consistent.exists_vertex_iff {g : Graph} (hg : g.Consistent) {id : NodeId} :
    (∃ node, g.vertex? id = some ⟨id, node⟩) ↔ id < g.size := by
  constructor
  · rintro ⟨node, hvertex⟩
    exact lt_size_of_vertex? hvertex
  · intro hid
    obtain ⟨node, hnode⟩ := exists_node_of_lt hid
    obtain ⟨vertex, hvertex, -⟩ := node?_eq_some_iff.mp hnode
    obtain rfl : vertex.id = id := hg.numbered id vertex hvertex
    exact ⟨vertex.node, hvertex⟩

theorem Grown.sound {g : Graph} (hg : g.Grown) : g.Sound where
  numbered _ := hg.consistent.exists_vertex_iff
  formed _ _ := hg.formed
  acyclic _ _ huses hreaches := absurd hreaches.le (Nat.not_le_of_lt huses.lt)
  distinct _ _ _ _ hnode hnode' hne heq := hne (hg.consistent.eq_of_name_eq hnode hnode' heq)
  named := hg.consistent.named
  rootless := by
    simp only [← isLeaf_iff]
    exact hg.rooted.absent
  rooted := by
    intro id hid
    obtain ⟨node, hnode, hbinary⟩ := hg.rooted.binary id hid
    refine ⟨node, hnode, fun hoperands => ?_⟩
    cases hbinary.symm.trans (isLeaf_iff.mpr hoperands)

/-- Every graph that requests lead to from the empty graph is sound and has its last binary node as the root; every
graph that is built is sound and stays so under requests.  A request that the graph does not admit is refused and
leaves the graph it was made to; any other adds its node at the end, under the number it answers, binds the name of
the node and nothing else, and makes the node the root if it is binary.  Nodes and names that are there stay. -/
theorem sound_afterAll :
    (∀ requests, (empty.afterAll requests).Sound ∧ (empty.afterAll requests).RootLast) ∧
    (∀ program options g, build program options = .ok g → g.Sound ∧
      ∀ requests, (g.afterAll requests).Sound) ∧
    (∀ (g : Graph) (request : Node),
      (¬ g.Admits request ∧ ∃ fault, g.ask request = (.error fault, g)) ∨
      (g.Admits request ∧ (g.ask request).1 = .ok g.size ∧
        (g.after request).vertices = g.vertices.push ⟨g.size, request⟩ ∧
        (∀ name, (g.after request).lookup name =
          if name = request.name then some g.size else g.lookup name) ∧
        (g.after request).root = if request.isLeaf then g.root else some g.size)) ∧
    ∀ (g : Graph) (requests : List Node),
      (∀ id vertex, g.vertex? id = some vertex → (g.afterAll requests).vertex? id = some vertex) ∧
      ∀ name id, g.lookup name = some id → (g.afterAll requests).lookup name = some id := by
  refine ⟨fun requests => ⟨?_, rootLast_afterAll requests⟩, ?_, ?_, ?_⟩
  · exact (Constructed.empty.afterAll requests).grown.sound
  · intro program options g hbuild
    have hg := Constructed.build hbuild
    exact ⟨hg.grown.sound, fun requests => (hg.afterAll requests).grown.sound⟩
  · intro g request
    rcases ask_cases g request with hrefused | ⟨g', hask, hadds⟩
    · exact .inl hrefused
    · rw [after, hask]
      exact .inr ⟨hadds.admits, rfl, hadds.vertices, hadds.lookup, hadds.root⟩
  · intro g requests
    have hkeeps := keeps_afterAll g requests
    exact ⟨fun _ _ => hkeeps.vertex?, fun _ _ => hkeeps.lookup⟩

/-- The root of this graph is defined again after a later node; of the four requests two are refused. -/
theorem sound_afterAll_productRepeated :
    ∃ g, build ⟨[], [⟨.mul, "t", "a", "b"⟩, ⟨.add, "u", "t", "t"⟩, ⟨.mul, "t", "a", "b"⟩]⟩
        ⟨false, true⟩ = .ok g ∧ g.root = some 2 ∧
      (g.afterAll [.leaf "t", .leaf "c", .binary "v" .ref 0 0, .binary "v" .sub 4 3]).Sound ∧
      (g.afterAll [.leaf "t", .leaf "c", .binary "v" .ref 0 0, .binary "v" .sub 4 3]).root = some 5 := by
  obtain ⟨g, hg, hroot, hlast⟩ :
      ∃ g, build ⟨[], [⟨.mul, "t", "a", "b"⟩, ⟨.add, "u", "t", "t"⟩, ⟨.mul, "t", "a", "b"⟩]⟩
          ⟨false, true⟩ = .ok g ∧ g.root = some 2 ∧
        (g.afterAll [.leaf "t", .leaf "c", .binary "v" .ref 0 0, .binary "v" .sub 4 3]).root = some 5 :=
    ⟨_, rfl, rfl, rfl⟩
  exact ⟨g, hg, hroot, (sound_afterAll.2.1 _ _ g hg).2 _, hlast⟩

end TileSelect.Graph
