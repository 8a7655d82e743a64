import TileSelect.Cost
import Mathlib.Algebra.Order.Ring.Nat

/-! # Saturating sums

Each cost stands for a natural number below `2 ^ 64`.  A saturating sum is the exact sum of the numbers, cut off
at the largest cost, and cutting off summands first makes no difference. -/
namespace TileSelect.Cost

def bound : Nat := 2 ^ 64 - 1

theorem toNat_le_bound (a : UInt64) : a.toNat ≤ bound := Nat.le_sub_one_of_lt a.toNat_lt

/-- The test for a wrapped sum is exact: the sum is cut off precisely if it does not fit. -/
theorem toNat_add (a b : UInt64) : (add a b).toNat = min (a.toNat + b.toNat) bound := by
  have ha := a.toNat_lt
  have hb := b.toNat_lt
  have hlargest : largest.toNat = bound := rfl
  unfold add
  by_cases hfit : a.toNat + b.toNat < 2 ^ 64
  · have hsum : (a + b).toNat = a.toNat + b.toNat := by
      rw [UInt64.toNat_add, Nat.mod_eq_of_lt hfit]
    rw [if_pos (UInt64.le_iff_toNat_le.mpr (by omega)), hsum, bound]
    omega
  · have hsum : (a + b).toNat = a.toNat + b.toNat - 2 ^ 64 := by
      rw [UInt64.toNat_add]
      omega
    rw [if_neg (fun h => by have := UInt64.le_iff_toNat_le.mp h; omega), hlargest, bound]
    omega

/-- Adding up from a cost on gives the exact sum, cut off once. -/
private theorem toNat_foldl_add (start : UInt64) (costs : List UInt64) :
    (costs.foldl add start).toNat = min (start.toNat + (costs.map UInt64.toNat).sum) bound := by
  induction costs generalizing start with
  | nil => simpa using (Nat.min_eq_left (toNat_le_bound start)).symm
  | cons cost costs ih =>
    simp only [List.foldl_cons, List.map_cons, List.sum_cons]
    rw [ih, toNat_add]
    omega

/-- A total is the exact sum, cut off once. -/
theorem toNat_total (costs : List UInt64) :
    (total costs).toNat = min (costs.map UInt64.toNat).sum bound := by
  simpa [total] using toNat_foldl_add 0 costs

/-- A total after a first cost is the exact sum of both, cut off once. -/
theorem toNat_add_total (cost : UInt64) (costs : List UInt64) :
    (add cost (total costs)).toNat = min (cost.toNat + (costs.map UInt64.toNat).sum) bound := by
  rw [toNat_add, toNat_total]
  omega

end TileSelect.Cost
