import TileSelect.Proofs.GraphConstruction
import TileSelect.Proofs.SelectionCompleteness

/-! # What the missing opcodes of a catalog decide

The opcodes that a catalog misses are found from its leaf patterns alone, without a graph.  A catalog that misses
none has a tile for every node of every graph that can be made, as such nodes have the four opcodes of graphs
only.  A catalog that misses references has no tile for a leaf, since a pattern that asks something of operands
does not match there; and every walk starts at a leaf. -/
namespace TileSelect

theorem Opcode.mem_all_of_isBinary {op : Opcode} (h : op.isBinary = true) : op ∈ Opcode.all := by
  cases op <;> simp_all [Opcode.isBinary, Opcode.all]

namespace Pattern

variable {g : Graph} {p : Pattern} {id : NodeId}

/-- A leaf pattern asks for the opcode of the node only. -/
theorem accepts_of_isLeaf (hp : p.isLeaf = true) {node : Node} (hnode : g.node? id = some node)
    (hop : p.op.accepts node.opcode = true) : p.accepts g id = true := by
  obtain ⟨op, left, right⟩ := p
  obtain ⟨hleft, hright⟩ := Bool.and_eq_true_iff.mp hp
  have hfree : ∀ {shape : Shape}, shape.isFree = true → ∀ n, shape.accepts g n = true := by
    intro shape hshape n
    cases shape with
    | free => rfl
    | node => cases hshape
  cases node with
  | leaf name => simp_all [accepts, shape, Shape.accepts, Node.opcode]
  | binary name op' lhs rhs =>
    have hl := hfree hleft lhs
    have hr := hfree hright rhs
    simp_all [accepts, shape, Shape.accepts, Node.opcode]

/-- At a leaf no other patterns match. -/
theorem accepts_leaf_iff {name : String} (hnode : g.node? id = some (.leaf name)) :
    p.accepts g id = true ↔ p.isLeaf = true ∧ p.op.accepts .ref = true := by
  constructor
  · intro h
    simp only [accepts, shape, Shape.accepts, hnode, Bool.and_eq_true] at h
    exact ⟨Bool.and_eq_true_iff.mpr ⟨h.1.2, h.2⟩, h.1.1⟩
  · rintro ⟨hp, hop⟩
    exact accepts_of_isLeaf hp hnode hop

end Pattern

namespace Catalog

variable {catalog : Catalog} {g : Graph} {id : NodeId}

theorem covers_iff {op : Opcode} : catalog.covers op = true ↔
    ∃ tile ∈ catalog.tiles, tile.pattern.isLeaf = true ∧ tile.pattern.op.accepts op = true := by
  simp [covers]

theorem mem_missing_iff {op : Opcode} :
    op ∈ catalog.missing ↔ op ∈ Opcode.all ∧ catalog.covers op = false := by
  simp [missing]

theorem covers_of_missing_eq_nil (h : catalog.missing = []) {op : Opcode} (hop : op ∈ Opcode.all) :
    catalog.covers op = true := by
  by_contra huncovered
  have hmem : op ∈ catalog.missing := mem_missing_iff.mpr ⟨hop, Bool.not_eq_true _ ▸ huncovered⟩
  rw [h] at hmem
  cases hmem

theorem matchesAt_of_covers {node : Node} (hnode : g.node? id = some node)
    (h : catalog.covers node.opcode = true) : catalog.matchesAt g id = true := by
  obtain ⟨tile, htile, hleaf, hop⟩ := covers_iff.mp h
  exact matchesAt_iff.mpr ⟨tile, htile, Pattern.accepts_of_isLeaf hleaf hnode hop⟩

theorem matchesAt_leaf {name : String} (hnode : g.node? id = some (.leaf name)) :
    catalog.matchesAt g id = catalog.covers .ref := by
  rw [Bool.eq_iff_iff, matchesAt_iff, covers_iff]
  simp only [Pattern.accepts_leaf_iff hnode]

end Catalog

theorem Graph.Grown.opcode_mem_all {g : Graph} (hg : g.Grown) {id : NodeId} {node : Node}
    (hnode : g.node? id = some node) : node.opcode ∈ Opcode.all := by
  cases node with
  | leaf name => simp [Node.opcode, Opcode.all]
  | binary name op lhs rhs => exact Opcode.mem_all_of_isBinary (hg.isBinary hnode)

/-- The tree under a node starts with a leaf. -/
theorem Graph.exists_unfolded_eq_cons {g : Graph} {id : NodeId} (hid : id < g.size) :
    ∃ first name rest, g.unfolded id = first :: rest ∧ g.node? first = some (.leaf name) := by
  induction id, hid using node_induction with
  | leaf id name hnode => exact ⟨id, name, [], unfolded_leaf hnode, hnode⟩
  | binary id name op lhs rhs hnode _ _ ihl _ =>
    obtain ⟨first, leafName, rest, hleft, hfirst⟩ := ihl
    refine ⟨first, leafName, rest ++ g.unfolded rhs ++ [id], ?_, hfirst⟩
    rw [unfolded_binary hnode, hleft]
    rfl

theorem Graph.exists_eraseDups_unfolded_eq_cons {g : Graph} {root : NodeId} (hroot : root < g.size) :
    ∃ first name rest, (g.unfolded root).eraseDups = first :: rest ∧
      g.node? first = some (.leaf name) := by
  obtain ⟨first, name, rest, hunfolded, hfirst⟩ := exists_unfolded_eq_cons hroot
  refine ⟨first, name, (rest.filter fun n => !n == first).eraseDups, ?_, hfirst⟩
  rw [hunfolded, List.eraseDups_cons]

namespace Selection

theorem exists_select_of_missing_eq_nil {catalog : Catalog} (h : catalog.missing = []) {g : Graph}
    (hg : g.Grown) {root : NodeId} (hroot : root < g.size) :
    ∃ s, select g root catalog = .ok s := by
  apply exists_select_of_matched hroot
  intro id hid
  obtain ⟨node, hnode⟩ := Graph.exists_node_of_lt (hid.lt_size hroot)
  have hcovers := Catalog.covers_of_missing_eq_nil h (hg.opcode_mem_all hnode)
  exact Catalog.matchesAt_of_covers hnode hcovers

theorem select_of_ref_mem_missing {catalog : Catalog} (h : Opcode.ref ∈ catalog.missing) {g : Graph}
    {root : NodeId} (hroot : root < g.size) :
    ∃ first name rest, g.postorderOnce root = .ok (first :: rest) ∧
      g.node? first = some (.leaf name) ∧ select g root catalog = .error (.noCover name .ref) := by
  obtain ⟨first, name, rest, horder, hfirst⟩ := Graph.exists_eraseDups_unfolded_eq_cons hroot
  have huncovered : catalog.covers .ref = false := (Catalog.mem_missing_iff.mp h).2
  have hunmatched : catalog.matchesAt g first = false := Catalog.matchesAt_leaf hfirst ▸ huncovered
  refine ⟨first, name, rest, by rw [Graph.postorderOnce_eq hroot, horder], hfirst, ?_⟩
  rcases select_cases hroot catalog with ⟨hall, -⟩ | ⟨id, node, hfind, hnode, herror⟩
  · have hmatched := hall first (by rw [horder]; exact List.mem_cons_self)
    rw [hunmatched] at hmatched
    cases hmatched
  · have hid : first = id := by simpa [horder, hunmatched] using hfind
    subst hid
    cases hfirst.symm.trans hnode
    exact herror

/-- A catalog without missing opcodes has a selection for every graph that can be made, from every root.  One
that misses references has none: the error names the first node of the walk, a leaf. -/
theorem missing_decides_select (catalog : Catalog) :
    (catalog.missing = [] → ∀ g : Graph, g.Constructed → ∀ root < g.size,
      ∃ s, select g root catalog = .ok s) ∧
    (Opcode.ref ∈ catalog.missing → ∀ g : Graph, g.Constructed → ∀ root < g.size,
      ∃ first name rest, g.postorderOnce root = .ok (first :: rest) ∧
        g.node? first = some (.leaf name) ∧ select g root catalog = .error (.noCover name .ref)) := by
  constructor
  · intro h g hg root hroot
    exact exists_select_of_missing_eq_nil h hg.grown hroot
  · intro h g _ root hroot
    exact select_of_ref_mem_missing h hroot

/-- All tiles are enough for a difference; without the last one, the tile for references, `a` has none. -/
theorem missing_decides_select_difference :
    ∃ g, Graph.build ⟨["a"], [⟨.mul, "t", "a", "b"⟩, ⟨.sub, "u", "t", "a"⟩]⟩ {} = .ok g ∧
      (∃ s, select g 3 Catalog.standard = .ok s) ∧
      select g 3 ⟨Catalog.standard.tiles.take 7⟩ = .error (.noCover "a" .ref) := by
  obtain ⟨g, hg, hsize, hwalk, hleaf⟩ :
      ∃ g, Graph.build ⟨["a"], [⟨.mul, "t", "a", "b"⟩, ⟨.sub, "u", "t", "a"⟩]⟩ {} = .ok g ∧
        3 < g.size ∧ g.postorderOnce 3 = .ok [0, 1, 2, 3] ∧ g.node? 0 = some (.leaf "a") :=
    ⟨_, rfl, by decide, by decide +kernel, rfl⟩
  have hconstructed := Graph.Constructed.build hg
  have hall := (missing_decides_select Catalog.standard).1 (by decide) g hconstructed 3 hsize
  obtain ⟨first, name, rest, horder, hfirst, herror⟩ :=
    (missing_decides_select ⟨Catalog.standard.tiles.take 7⟩).2 (by decide) g hconstructed 3 hsize
  cases hwalk.symm.trans horder
  cases hleaf.symm.trans hfirst
  exact ⟨g, hg, hall, herror⟩

end Selection
end TileSelect
