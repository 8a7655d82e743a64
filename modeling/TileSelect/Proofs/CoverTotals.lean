import TileSelect.Proofs.CoverOrder
import TileSelect.Proofs.TilingOptimality

/-! # Paying for shared instances once

The cost recorded for the root pays for an input as often as it is used; the total of the cover pays for every
instance once.  Both are compared without cutting off.  The tree cost of the node of an instance is the cost of its
tile and the tree costs of its inputs.  Added up over the cover, the nodes stand on one side and the entries of all
input lists on the other.  Every node but the root is such an entry, and all entries are nodes other than the root.
What is left is the tree cost of the root on one side, and on the other the total and whatever is paid for entries
that stand more than once. -/
namespace TileSelect.Selection

/-- The costs of the selected tiles under a node, each counted as often as it is used and nothing cut off. -/
def treeCost (s : Selection) (id : NodeId) : ℕ :=
  match s.annotation? id with
  | none => 0
  | some a =>
    match _hb : a.tile.pattern.boundary s.graph id with
    | .error _ => 0
    | .ok b => a.tile.cost.toNat + (b.inputs.attach.map fun input => treeCost s input.val).sum
termination_by id
decreasing_by exact Pattern.lt_of_mem_boundary _hb input.val input.property

section Trees

variable {s : Selection} {id : NodeId}

theorem treeCost_eq {a : Annotation} {b : Boundary} (ha : s.annotation? id = some a)
    (hb : a.tile.pattern.boundary s.graph id = .ok b) :
    s.treeCost id = a.tile.cost.toNat + (b.inputs.map s.treeCost).sum := by
  rw [treeCost, ha]
  dsimp only
  split
  · next hb' => cases hb.symm.trans hb'
  · next b' hb' =>
    obtain rfl := Except.ok.inj (hb.symm.trans hb')
    rw [List.attach_map_val]

theorem Selects.treeCost_eq {i : Instance} (h : s.Selects i) :
    s.treeCost i.node = i.tile.cost.toNat + (i.inputs.map s.treeCost).sum := by
  obtain ⟨htile, hb⟩ := h
  obtain ⟨a, ha, hsame⟩ := Option.map_eq_some_iff.mp htile
  rw [← hsame] at hb ⊢
  exact Selection.treeCost_eq ha hb

/-- The tree of a node is the tiling that follows the selected tiles. -/
theorem cost_eq_treeCost {catalog : Catalog} {t : Tiling s.graph catalog id} (h : t.Follows s) :
    t.cost = s.treeCost id := by
  induction t with
  | @mk id tile b hmem haccepts hb below ih =>
    obtain ⟨htile, hbelow⟩ := h
    obtain ⟨a, ha, rfl⟩ := Option.map_eq_some_iff.mp htile
    calc a.tile.cost.toNat + ∑ i, (below i).cost
        = a.tile.cost.toNat + ∑ i : Fin b.inputs.length, s.treeCost (b.inputs.get i) := by
          simp only [ih _ (hbelow _)]
      _ = a.tile.cost.toNat + (b.inputs.map s.treeCost).sum := by
          rw [← Fin.sum_univ_fun_getElem]
          rfl
      _ = s.treeCost id := (Selection.treeCost_eq ha hb).symm

/-- Recorded costs are tree costs, cut off. -/
theorem costAt_eq_min_treeCost {g : Graph} {root : NodeId} {catalog : Catalog}
    (h : select g root catalog = .ok s) (hid : g.Reaches root id) :
    s.costAt id = min (s.treeCost id) Cost.bound := by
  obtain ⟨t, hfollows, hcost⟩ := exists_follows h hid
  obtain rfl := (visited_of_select h).graph
  rw [hcost, cost_eq_treeCost hfollows]

end Trees

section Counting

variable {s : Selection} {root : NodeId} {instances : List Instance}

theorem Covers.mem_map_node_of_mem_inputs (h : s.Covers root instances) {n : NodeId}
    (hn : n ∈ instances.flatMap Instance.inputs) : n ∈ instances.map Instance.node ∧ n ≠ root := by
  obtain ⟨i, hi, hinput⟩ := List.mem_flatMap.mp hn
  have hlt : n < i.node := Pattern.lt_of_mem_boundary (h.selects i hi).2 n hinput
  have hle : i.node ≤ root := (h.demands i.node (List.mem_map_of_mem hi)).reaches.le
  exact ⟨NeedsFirst.mem_of_mem h.inputsFirst hi hinput, Nat.ne_of_lt (Nat.lt_of_lt_of_le hlt hle)⟩

/-- The root and the inputs are closed under inputs, so that nothing else is demanded. -/
theorem Covers.demandClosed_inputs (h : s.Covers root instances) :
    s.DemandClosed root {n | n = root ∨ n ∈ instances.flatMap Instance.inputs} := by
  refine ⟨Or.inl rfl, fun n hn a b ha hb input hinput => Or.inr ?_⟩
  have hnode : n ∈ instances.map Instance.node := by
    rcases hn with rfl | hn
    · exact h.root
    · exact (h.mem_map_node_of_mem_inputs hn).1
  obtain ⟨i, hi, rfl⟩ := List.mem_map.mp hnode
  rw [(h.selects i hi).inputs_eq ha hb] at hinput
  exact List.mem_flatMap.mpr ⟨i, hi, hinput⟩

/-- The inputs are the nodes other than the root. -/
theorem Covers.mem_inputs_iff (h : s.Covers root instances) (n : NodeId) :
    n ∈ instances.flatMap Instance.inputs ↔ n ∈ (instances.map Instance.node).erase root := by
  rw [h.nodup.mem_erase_iff]
  constructor
  · intro hn
    exact (h.mem_map_node_of_mem_inputs hn).symm
  · rintro ⟨hne, hn⟩
    exact (h.demandClosed_inputs.mem_of_demands (h.demands n hn) (Or.inl rfl)).resolve_left hne

/-- Tree costs added up over the nodes of instances. -/
theorem sum_treeCost_nodes (h : ∀ i ∈ instances, s.Selects i) :
    ((instances.map Instance.node).map s.treeCost).sum =
      (instances.map fun i => i.tile.cost.toNat).sum +
        ((instances.flatMap Instance.inputs).map s.treeCost).sum := by
  induction instances with
  | nil => rfl
  | cons i instances ih =>
    have hi := (h i List.mem_cons_self).treeCost_eq
    have hrest := ih fun j hj => h j (List.mem_cons_of_mem _ hj)
    simp only [List.map_cons, List.sum_cons, List.flatMap_cons, List.map_append, List.sum_append]
    omega

theorem Covers.treeCost_add_eq (h : s.Covers root instances) :
    s.treeCost root + (((instances.map Instance.node).erase root).map s.treeCost).sum =
      (instances.map fun i => i.tile.cost.toNat).sum +
        ((instances.flatMap Instance.inputs).map s.treeCost).sum := by
  rw [List.sum_map_erase s.treeCost h.root, sum_treeCost_nodes h.selects]

/-- Every node but the root is paid for at least once in the tree. -/
theorem Covers.sum_cost_le (h : s.Covers root instances) :
    (instances.map fun i => i.tile.cost.toNat).sum ≤ s.treeCost root := by
  have hsubset : (instances.map Instance.node).erase root ⊆ instances.flatMap Instance.inputs :=
    fun n hn => (h.mem_inputs_iff n).mpr hn
  obtain ⟨inputs, hperm, hsublist⟩ := List.subperm_of_subset (h.nodup.erase root) hsubset
  have hle : (((instances.map Instance.node).erase root).map s.treeCost).sum ≤
      ((instances.flatMap Instance.inputs).map s.treeCost).sum := by
    rw [← (hperm.map s.treeCost).sum_eq]
    exact (hsublist.map s.treeCost).sum_le_sum fun _ _ => Nat.zero_le _
  have := h.treeCost_add_eq
  omega

/-- If no entry of the input lists stands twice, every node but the root is paid for exactly once. -/
theorem Covers.sum_cost_eq (h : s.Covers root instances)
    (hinputs : (instances.flatMap Instance.inputs).Nodup) :
    (instances.map fun i => i.tile.cost.toNat).sum = s.treeCost root := by
  have hperm : ((instances.map Instance.node).erase root).Perm (instances.flatMap Instance.inputs) :=
    (List.perm_ext_iff_of_nodup (h.nodup.erase root) hinputs).mpr fun n => (h.mem_inputs_iff n).symm
  have hsum := (hperm.map s.treeCost).sum_eq
  have := h.treeCost_add_eq
  omega

end Counting

/-- The total of a selection is the exact sum of the costs of the tiles in its cover, cut off.  It is at most the
cost recorded for the root, and the same if no node stands twice in the input lists of the cover. -/
theorem total_le_root_cost {g : Graph} {root : NodeId} {catalog : Catalog} {s : Selection}
    (h : select g root catalog = .ok s) :
    ∃ instances total a, s.cover = .ok instances ∧ s.total = .ok total ∧
      s.annotation? s.root = some a ∧
      total.toNat = min (2 ^ 64 - 1) (instances.map fun i => i.tile.cost.toNat).sum ∧
      total ≤ a.cost ∧
      ((instances.flatMap Instance.inputs).Nodup → total = a.cost) := by
  obtain ⟨instances, hcover, hcovers⟩ := exists_cover h
  obtain ⟨a, ha⟩ := exists_annotation_of_reaches h (.refl root)
  have htotal : (Cost.total (instances.map fun i => i.tile.cost)).toNat =
      min (instances.map fun i => i.tile.cost.toNat).sum Cost.bound := by
    rw [Cost.toNat_total, List.map_map]
    rfl
  have hroot : a.cost.toNat = min (s.treeCost root) Cost.bound := by
    rw [← costAt_eq ha, costAt_eq_min_treeCost h (.refl root)]
  refine ⟨instances, _, a, hcover, by rw [total, hcover]; rfl, ?_, ?_, ?_, fun hinputs => ?_⟩
  · rw [(visited_of_select h).root, ha]
  · rw [htotal, Nat.min_comm]
    rfl
  · have hle := hcovers.sum_cost_le
    rw [UInt64.le_iff_toNat_le, htotal, hroot]
    omega
  · rw [← UInt64.toNat_inj, htotal, hroot, hcovers.sum_cost_eq hinputs]

/-- Two products that are used once each are paid for alike by both; one product that is used twice is paid for once
by the total and twice by the cost of the root. -/
theorem total_le_root_cost_products :
    (∃ s instances total a, select productsApart 6 Catalog.standard = .ok s ∧
      s.cover = .ok instances ∧ (instances.flatMap Instance.inputs).Nodup ∧ s.total = .ok total ∧
      s.annotation? s.root = some a ∧ total = a.cost) ∧
    ∃ s total a, select productTwice 3 ⟨Catalog.standard.tiles.tail⟩ = .ok s ∧
      s.total = .ok total ∧ s.annotation? s.root = some a ∧ total = 4 ∧ a.cost = 5 ∧ total ≤ a.cost := by
  constructor
  · have hrun : (select productsApart 6 Catalog.standard).map
        (fun s => s.cover.map (List.flatMap Instance.inputs)) = .ok (.ok [2, 3, 0, 1, 5]) := by
      decide +kernel
    obtain ⟨s, hs, hnodup⟩ := Result.map_eq_ok_iff.mp hrun
    obtain ⟨instances, total, a, hcover, htotal, ha, -, -, hsame⟩ := total_le_root_cost hs
    have hinputs : (instances.flatMap Instance.inputs).Nodup := by
      rw [hcover] at hnodup
      rw [Except.ok.inj hnodup]
      decide
    exact ⟨s, instances, total, a, hs, hcover, hinputs, htotal, ha, hsame hinputs⟩
  · have hrun : (select productTwice 3 ⟨Catalog.standard.tiles.tail⟩).map
        (fun s => (s.total, (s.annotation? s.root).map Annotation.cost)) = .ok (.ok 4, some 5) := by
      decide +kernel
    obtain ⟨s, hs, hboth⟩ := Result.map_eq_ok_iff.mp hrun
    obtain ⟨hfour, hfive⟩ := Prod.mk.inj hboth
    obtain ⟨instances, total, a, -, htotal, ha, -, hle, -⟩ := total_le_root_cost hs
    refine ⟨s, total, a, hs, htotal, ha, Except.ok.inj (htotal.symm.trans hfour), ?_, hle⟩
    simpa [ha] using hfive

end TileSelect.Selection
