import TileSelect.Proofs.SaturatingCosts
import TileSelect.Proofs.SelectionCompleteness
import Mathlib.Algebra.BigOperators.Fin
import Mathlib.Algebra.Order.BigOperators.Group.Finset
import Mathlib.Order.Bounds.Defs

/-! # Tilings of least cost

A tiling of a node is a tile that matches there and, for every entry of the tile's inputs, a tiling of that
input; an input that occurs twice is tiled twice.  Tilings are independent of any selection: they range over
all ways to cover the tree under a node.  The cost that a selection records for a node is the least cost of its
tilings, computed without bounds and then cut off at the largest cost, and the tiling made of the selected
tiles has that cost. -/
namespace TileSelect

/-- A tile at a node and a tiling of each of its inputs. -/
inductive Tiling (g : Graph) (catalog : Catalog) : NodeId → Type where
  | mk {id : NodeId} (tile : Tile) (b : Boundary) (hmem : tile ∈ catalog.tiles)
      (haccepts : tile.pattern.accepts g id = true) (hb : tile.pattern.boundary g id = .ok b)
      (below : ∀ i : Fin b.inputs.length, Tiling g catalog (b.inputs.get i)) : Tiling g catalog id

namespace Tiling

variable {g : Graph} {catalog : Catalog}

def cost {id : NodeId} : Tiling g catalog id → ℕ
  | mk tile _ _ _ _ below => tile.cost.toNat + ∑ i, (below i).cost

/-- At every node the tile of the tiling is the selected one. -/
def Follows (s : Selection) {id : NodeId} : Tiling g catalog id → Prop
  | mk tile _ _ _ _ below =>
    (s.annotation? id).map Annotation.tile = some tile ∧ ∀ i, (below i).Follows s

/-- Selected tiles leave no choice. -/
theorem Follows.unique {s : Selection} {id : NodeId} {t t' : Tiling g catalog id}
    (ht : t.Follows s) (ht' : t'.Follows s) : t = t' := by
  induction t with
  | mk tile b hmem haccepts hb below ih =>
    cases t' with
    | mk tile' b' hmem' haccepts' hb' below' =>
      obtain ⟨htile, hbelow⟩ := ht
      obtain ⟨htile', hbelow'⟩ := ht'
      obtain rfl : tile = tile' := Option.some.inj (htile.symm.trans htile')
      obtain rfl : b = b' := Except.ok.inj (hb.symm.trans hb')
      obtain rfl : below = below' := funext fun i => ih i (hbelow i) (hbelow' i)
      rfl

end Tiling

namespace Selection

def costAt (s : Selection) (id : NodeId) : ℕ :=
  ((s.annotation? id).map fun a => a.cost.toNat).getD 0

/-- What a tile with a given boundary comes to. -/
def tileCost (s : Selection) (tile : Tile) (b : Boundary) : ℕ :=
  min (tile.cost.toNat + (b.inputs.map s.costAt).sum) Cost.bound

theorem costAt_eq {s : Selection} {id : NodeId} {a : Annotation} (h : s.annotation? id = some a) :
    s.costAt id = a.cost.toNat := by
  rw [costAt, h]
  rfl

theorem cost_of_candidate {s : Selection} {id : NodeId} {tile : Tile} {a : Annotation}
    (h : s.candidate id tile = .ok a) :
    ∃ b, tile.pattern.boundary s.graph id = .ok b ∧ a.tile = tile ∧
      a.cost.toNat = s.tileCost tile b := by
  obtain ⟨b, found, hb, hfound, rfl⟩ := candidate_eq_ok_iff.mp h
  have hcosts : b.inputs.map s.costAt = (found.map Annotation.cost).map UInt64.toNat := by
    calc b.inputs.map s.costAt
        = (b.inputs.map s.annotation?).map fun a => (a.map fun a => a.cost.toNat).getD 0 := by
          rw [List.map_map]
          rfl
      _ = (found.map Annotation.cost).map UInt64.toNat := by
          rw [hfound, List.map_map, List.map_map]
          rfl
  exact ⟨b, hb, rfl, by rw [Cost.toNat_add_total, tileCost, hcosts]⟩

/-- The annotation of a node is its cheapest matching tile, given the costs recorded for the inputs. -/
theorem Visited.local_choice {g : Graph} {root : NodeId} {catalog : Catalog} {done : List NodeId}
    {s : Selection} (h : Visited g root catalog done s) {id : NodeId} {a : Annotation}
    (ha : s.annotation? id = some a) :
    a.tile ∈ catalog.tiles ∧ a.tile.pattern.accepts g id = true ∧
      (∃ b, a.tile.pattern.boundary g id = .ok b ∧ s.costAt id = s.tileCost a.tile b) ∧
      ∀ tile ∈ catalog.tiles, tile.pattern.accepts g id = true →
        ∀ b, tile.pattern.boundary g id = .ok b → s.costAt id ≤ s.tileCost tile b := by
  obtain ⟨-, found, hfound, hcheapest⟩ := choose_eq_ok_iff.mp (h.chosen id a ha)
  obtain ⟨hmem, hleast⟩ := cheapest?_spec hcheapest
  obtain ⟨tile, htile, haccepts, hcandidate⟩ := (mem_of_candidates_eq_ok hfound).mp hmem
  obtain ⟨b, hb, rfl, hcost⟩ := cost_of_candidate hcandidate
  have hgraph := h.graph
  subst hgraph
  rw [costAt_eq ha]
  refine ⟨htile, haccepts, ⟨b, hb, hcost⟩, fun tile' htile' haccepts' b' hb' => ?_⟩
  obtain ⟨a', ha', hcandidate'⟩ := exists_candidate_of_candidates_eq_ok hfound htile' haccepts'
  obtain ⟨c, hc, -, hcost'⟩ := cost_of_candidate hcandidate'
  obtain rfl : c = b' := Except.ok.inj (hc.symm.trans hb')
  rw [← hcost']
  exact UInt64.le_iff_toNat_le.mp (hleast a' ha')

section Optimality

variable {g : Graph} {root : NodeId} {catalog : Catalog} {s : Selection}

/-- No tiling is cheaper than the recorded cost: at its root another tile may be used than the selected one, but
none has a lower price, and the prices of its inputs are no higher than what the tiling pays for them. -/
theorem costAt_le_cost (h : select g root catalog = .ok s) {id : NodeId} (t : Tiling g catalog id)
    (hid : g.Reaches root id) : s.costAt id ≤ t.cost := by
  induction t with
  | @mk id tile b hmem haccepts hb below ih =>
    obtain ⟨a, ha⟩ := exists_annotation_of_reaches h hid
    have hprice := ((visited_of_select h).local_choice ha).2.2.2 tile hmem haccepts b hb
    have hbelow : ∀ i : Fin b.inputs.length, s.costAt (b.inputs.get i) ≤ (below i).cost := fun i =>
      ih i (hid.trans (Pattern.reaches_of_mem_inputs hb _ (List.get_mem _ i)))
    calc s.costAt id ≤ s.tileCost tile b := hprice
      _ ≤ tile.cost.toNat + (b.inputs.map s.costAt).sum := min_le_left _ _
      _ = tile.cost.toNat + ∑ i : Fin b.inputs.length, s.costAt (b.inputs.get i) := by
        rw [← Fin.sum_univ_fun_getElem]
        rfl
      _ ≤ tile.cost.toNat + ∑ i, (below i).cost :=
        Nat.add_le_add_left (Finset.sum_le_sum fun i _ => hbelow i) _

/-- Cutting off the summands as well changes nothing. -/
private theorem min_add_sum_min {ι : Type} (indices : Finset ι) (x : ℕ) (c : ι → ℕ) :
    min (x + ∑ i ∈ indices, min (c i) Cost.bound) Cost.bound =
      min (x + ∑ i ∈ indices, c i) Cost.bound := by
  induction indices using Finset.cons_induction generalizing x with
  | empty => simp
  | cons i indices hi ih =>
    rw [Finset.sum_cons, Finset.sum_cons, ← Nat.add_assoc, ih]
    omega

/-- The selected tiles make up a tiling, and its cost, cut off, is the recorded one. -/
theorem exists_follows (h : select g root catalog = .ok s) {id : NodeId}
    (hid : g.Reaches root id) :
    ∃ t : Tiling g catalog id, t.Follows s ∧ s.costAt id = min t.cost Cost.bound := by
  induction id using Nat.strong_induction_on with
  | _ id ih =>
    obtain ⟨a, ha⟩ := exists_annotation_of_reaches h hid
    obtain ⟨hmem, haccepts, ⟨b, hb, hcost⟩, -⟩ := (visited_of_select h).local_choice ha
    have hbelow : ∀ i : Fin b.inputs.length, ∃ t : Tiling g catalog (b.inputs.get i),
        t.Follows s ∧ s.costAt (b.inputs.get i) = min t.cost Cost.bound := fun i =>
      ih _ (Pattern.lt_of_mem_boundary hb _ (List.get_mem _ i))
        (hid.trans (Pattern.reaches_of_mem_inputs hb _ (List.get_mem _ i)))
    choose below hfollows hcosts using hbelow
    refine ⟨.mk a.tile b hmem haccepts hb below, ⟨by rw [ha]; rfl, hfollows⟩, ?_⟩
    calc s.costAt id
        = min (a.tile.cost.toNat + ∑ i : Fin b.inputs.length, s.costAt (b.inputs.get i))
            Cost.bound := by
          rw [hcost, tileCost, ← Fin.sum_univ_fun_getElem]
          rfl
      _ = min (a.tile.cost.toNat + ∑ i, min (below i).cost Cost.bound) Cost.bound := by
          simp only [hcosts]
      _ = min (a.tile.cost.toNat + ∑ i, (below i).cost) Cost.bound := min_add_sum_min _ _ _

/-- The cost recorded for a node under the root is at most that of any tiling, and it is that of the tiling
which follows the selected tiles, cut off at the largest cost; so it is the least cost of a tiling, cut off. -/
theorem annotation_cost_optimal (h : select g root catalog = .ok s) {n : NodeId}
    (hn : g.Reaches root n) :
    ∃ a, s.annotation? n = some a ∧
      (∀ t : Tiling g catalog n, a.cost.toNat ≤ t.cost) ∧
      (∃ t : Tiling g catalog n, t.Follows s ∧ (∀ t' : Tiling g catalog n, t'.Follows s → t' = t) ∧
        a.cost.toNat = min t.cost (2 ^ 64 - 1)) ∧
      ∃ least, IsLeast (Set.range fun t : Tiling g catalog n => t.cost) least ∧
        a.cost.toNat = min least (2 ^ 64 - 1) := by
  obtain ⟨a, ha⟩ := exists_annotation_of_reaches h hn
  have hle : ∀ t : Tiling g catalog n, a.cost.toNat ≤ t.cost := fun t =>
    costAt_eq ha ▸ costAt_le_cost h t hn
  obtain ⟨t, hfollows, hcost⟩ := exists_follows h hn
  have hcost' : a.cost.toNat = min t.cost (2 ^ 64 - 1) := (costAt_eq ha).symm.trans hcost
  obtain ⟨least, ⟨u, hu⟩, hmin⟩ :=
    wellFounded_lt.has_min (Set.range fun t : Tiling g catalog n => t.cost) ⟨t.cost, t, rfl⟩
  have hleast : least ≤ t.cost := not_lt.mp (hmin t.cost ⟨t, rfl⟩)
  have hattained : a.cost.toNat ≤ least := hu ▸ hle u
  refine ⟨a, ha, hle, ⟨t, hfollows, fun t' ht' => ht'.unique hfollows, hcost'⟩, least, ?_, ?_⟩
  · exact ⟨⟨u, hu⟩, fun c hc => not_lt.mp (hmin c hc)⟩
  · omega

/-- Fusing the product into the sum costs two, although the product is then computed twice. -/
theorem annotation_cost_optimal_productTwice :
    ∃ s a, select productTwice 3 Catalog.standard = .ok s ∧ s.annotation? 3 = some a ∧
      a.cost = 2 ∧ ∀ t : Tiling productTwice Catalog.standard 3, 2 ≤ t.cost := by
  have hrun : (select productTwice 3 Catalog.standard).map
      (fun s => (s.annotation? 3).map Annotation.cost) = .ok (some 2) := by
    decide +kernel
  obtain ⟨s, hs, hcost⟩ := Result.map_eq_ok_iff.mp hrun
  obtain ⟨a, ha, hle, -⟩ := annotation_cost_optimal hs (.refl 3)
  have htwo : a.cost = 2 := by simpa [ha] using hcost
  exact ⟨s, a, hs, ha, htwo, fun t => by simpa [htwo] using hle t⟩

end Optimality

end Selection
end TileSelect
