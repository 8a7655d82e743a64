import TileSelect.Proofs.TieBreaking
import TileSelect.Selection.Cover

/-! # Costs added up in any order

Saturating addition is the exact one with everything past the largest cost forgotten, and what is forgotten cannot come
back, since costs are never subtracted.  So it does not matter in which order some costs are added, nor how they are
grouped: the price of the inputs of a tile, the cost of a candidate and the total of a cover are grouped in three
different ways, and each is the exact sum of its costs, cut off once. -/
namespace TileSelect

namespace Cost

/-- The exact sum of some costs, cut off at the largest cost. -/
def cutSum (costs : List UInt64) : ℕ := min (costs.map UInt64.toNat).sum (2 ^ 64 - 1)

theorem cutSum_perm {costs costs' : List UInt64} (h : costs.Perm costs') : cutSum costs = cutSum costs' := by
  rw [cutSum, (h.map UInt64.toNat).sum_eq, cutSum]

/-- A way to add up costs: there are none, there is one, or two groups are added up first. -/
inductive Grouping where
  | none
  | one (cost : UInt64)
  | both (left right : Grouping)

namespace Grouping

def costs : Grouping → List UInt64
  | none => []
  | one cost => [cost]
  | both left right => left.costs ++ right.costs

def sum : Grouping → UInt64
  | none => 0
  | one cost => cost
  | both left right => add left.sum right.sum

theorem toNat_sum (grouping : Grouping) : grouping.sum.toNat = cutSum grouping.costs := by
  induction grouping with
  | none => rfl
  | one cost =>
    have hcost : [cost.toNat].sum = cost.toNat := List.sum_singleton
    exact (hcost ▸ Nat.min_eq_left (toNat_le_bound cost)).symm
  | both left right ihleft ihright =>
    rw [sum, costs, toNat_add, ihleft, ihright]
    -- a group that is cut off already makes the whole cut off
    simp only [cutSum, bound, List.map_append, List.sum_append]
    omega

end Grouping
end Cost

namespace Selection

/-- The recorded costs of the inputs of a tile at a node, one for each entry of the boundary. -/
def inputCosts (s : Selection) (tile : Tile) (id : NodeId) : Except Fault (List UInt64) := do
  let b ← tile.pattern.boundary s.graph id
  b.inputs.mapM s.price

theorem inputsPrice_eq (s : Selection) (tile : Tile) (id : NodeId) :
    s.inputsPrice tile id = (s.inputCosts tile id).map Cost.total := by
  rw [inputsPrice, inputCosts]
  cases tile.pattern.boundary s.graph id with
  | error fault => rfl
  | ok b =>
    rw [Result.ok_bind, Result.ok_bind]
    cases b.inputs.mapM s.price <;> rfl

theorem toNat_inputsPrice (s : Selection) (tile : Tile) (id : NodeId) :
    (s.inputsPrice tile id).map UInt64.toNat = (s.inputCosts tile id).map Cost.cutSum := by
  rw [inputsPrice_eq]
  cases s.inputCosts tile id with
  | error fault => rfl
  | ok costs => exact congrArg Except.ok (Cost.toNat_total costs)

theorem toNat_candidate (s : Selection) (id : NodeId) (tile : Tile) :
    (s.candidate id tile).map (fun a => a.cost.toNat) =
      (s.inputCosts tile id).map fun costs => Cost.cutSum (tile.cost :: costs) := by
  rw [candidate, inputsPrice_eq]
  cases s.inputCosts tile id with
  | error fault => rfl
  | ok costs => exact congrArg Except.ok (Cost.toNat_add_total tile.cost costs)

theorem toNat_total (s : Selection) :
    s.total.map UInt64.toNat =
      s.cover.map fun instances => Cost.cutSum (instances.map fun i => i.tile.cost) := by
  rw [total]
  cases s.cover with
  | error fault => rfl
  | ok instances => exact congrArg Except.ok (Cost.toNat_total _)

theorem candidate_of_choose {s : Selection} {catalog : Catalog} {id : NodeId} {a : Annotation}
    (h : s.choose catalog id = .ok a) : s.candidate id a.tile = .ok a := by
  obtain ⟨-, found, hfound, hcheapest⟩ := choose_eq_ok_iff.mp h
  obtain ⟨tile, -, -, hcandidate⟩ := (mem_of_candidates_eq_ok hfound).mp (cheapest?_spec hcheapest).1
  obtain ⟨b, inputs, -, -, rfl⟩ := candidate_eq_ok_iff.mp hcandidate
  exact hcandidate

end Selection

namespace Cost

/-- The sum of two costs is the exact one, cut off.  Hence some costs come to their exact sum, cut off once, in
whatever order they are added from the left and however they are grouped.  This is what a selection records and reports:
for the inputs of a tile, for a candidate and the one chosen among them, and for the tiles of the cover. -/
theorem sums_exact_in_any_order :
    (∀ a b : UInt64, (add a b).toNat = min (a.toNat + b.toNat) (2 ^ 64 - 1)) ∧
    (∀ costs : List UInt64,
      (∀ order : List UInt64, order.Perm costs → (order.foldl add 0).toNat = cutSum costs) ∧
      ∀ grouping : Grouping, grouping.costs.Perm costs → grouping.sum.toNat = cutSum costs) ∧
    ∀ s : Selection,
      (∀ tile id, (s.inputsPrice tile id).map UInt64.toNat = (s.inputCosts tile id).map cutSum) ∧
      (∀ tile id, (s.candidate id tile).map (fun a => a.cost.toNat) =
        (s.inputCosts tile id).map fun costs => cutSum (tile.cost :: costs)) ∧
      (∀ catalog id a, s.choose catalog id = .ok a →
        (s.inputCosts a.tile id).map (fun costs => cutSum (a.tile.cost :: costs)) = .ok a.cost.toNat) ∧
      s.total.map UInt64.toNat =
        s.cover.map fun instances => cutSum (instances.map fun i => i.tile.cost) := by
  refine ⟨toNat_add, fun costs => ⟨?_, ?_⟩, fun s => ⟨s.toNat_inputsPrice, ?_, ?_, s.toNat_total⟩⟩
  · intro order horder
    rw [← cutSum_perm horder]
    exact toNat_total order
  · intro grouping hgrouping
    rw [grouping.toNat_sum, cutSum_perm hgrouping]
  · intro tile id
    exact s.toNat_candidate id tile
  · intro catalog id a ha
    rw [← s.toNat_candidate, Selection.candidate_of_choose ha]
    rfl

/-- Three costs that pass the largest one in every order and grouping, and the sum of a product with itself, where the
tile alone leaves no room for the costs of the products. -/
theorem sums_exact_in_any_order_dearSums :
    let costs : List UInt64 := [largest - 1, 3, 5]
    let grouping := Grouping.both (.one 5) (.both (.one 3) (.one (largest - 1)))
    let tile : Tile := ⟨"add.first", .leaf .add, .resource .lut, largest⟩
    grouping.costs.Perm costs ∧ grouping.sum.toNat = 2 ^ 64 - 1 ∧
      ([3, 5, largest - 1].foldl add 0).toNat = 2 ^ 64 - 1 ∧
      ∃ s a, Selection.select Selection.productTwice 3 Selection.dearSums = .ok s ∧
        s.choose Selection.dearSums 3 = .ok a ∧ a.tile = tile ∧ s.inputCosts tile 3 = .ok [1, 1] ∧
        a.cost.toNat = 2 ^ 64 - 1 := by
  intro costs grouping tile
  obtain ⟨-, hsums, hselections⟩ := sums_exact_in_any_order
  have hperm : grouping.costs.Perm costs := by decide
  have hrun : (Selection.select Selection.productTwice 3 Selection.dearSums).map
      (fun s => (s.choose Selection.dearSums 3, s.inputCosts tile 3)) =
        .ok (.ok ⟨3, tile, .resource .lut, largest⟩, .ok [1, 1]) := by
    decide +kernel
  obtain ⟨s, hs, hboth⟩ := Result.map_eq_ok_iff.mp hrun
  obtain ⟨hchoose, hinputs⟩ := Prod.mk.inj hboth
  have hcost := (hselections s).2.2.1 _ _ _ hchoose
  rw [hinputs] at hcost
  exact ⟨hperm, (hsums costs).2 grouping hperm, (hsums costs).1 _ (by decide), s, _, hs, hchoose, rfl, hinputs,
    (Except.ok.inj hcost).symm⟩

end Cost
end TileSelect
