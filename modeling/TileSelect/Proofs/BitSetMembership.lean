import TileSelect.Collection.BitSet
import Mathlib.Data.Nat.Bitwise

/-! # Membership in bit sets

A bit of a word is a binary digit of its value, and a bit set is known by the numbers it contains: a new set
contains none whatever room was made for it, and inserting a number adds that number and no other.  Nothing
else about the words is used elsewhere. -/
namespace TileSelect.BitSet

/-- The mask of bit `i` has the value `2 ^ i`. -/
private theorem toNat_mask {i : Nat} (hi : i < 64) :
    ((1 : UInt64) <<< UInt64.ofNat i).toNat = 2 ^ i := by
  have hpow : 2 ^ i < 2 ^ 64 := Nat.pow_lt_pow_right (by decide) hi
  have hsize : i % 2 ^ 64 % 64 = i := by omega
  rw [UInt64.toNat_shiftLeft, UInt64.toNat_ofNat', hsize, UInt64.toNat_one, Nat.one_shiftLeft,
    Nat.mod_eq_of_lt hpow]

theorem bit_eq_testBit (word : UInt64) {i : Nat} (hi : i < 64) :
    bit word i = word.toNat.testBit i := by
  have hzero : word &&& ((1 : UInt64) <<< UInt64.ofNat i) = 0 ↔ word.toNat &&& 2 ^ i = 0 := by
    rw [← UInt64.toNat_inj, UInt64.toNat_and, toNat_mask hi, UInt64.toNat_zero]
  have hand := Nat.and_two_pow word.toNat i
  rw [Bool.eq_iff_iff, bit, bne_iff_ne, Ne, hzero, hand]
  cases word.toNat.testBit i <;> simp

@[simp] theorem bit_zero (i : Nat) : bit 0 i = false := by simp [bit]

/-- Setting a bit leaves the others as they are. -/
theorem bit_or_mask (word : UInt64) {i j : Nat} (hi : i < 64) (hj : j < 64) :
    bit (word ||| ((1 : UInt64) <<< UInt64.ofNat i)) j = (bit word j || decide (i = j)) := by
  rw [bit_eq_testBit _ hj, bit_eq_testBit _ hj, UInt64.toNat_or, toNat_mask hi, Nat.testBit_or,
    Nat.testBit_two_pow]

/-- A set is a word for each number, the words past the last one being zero. -/
theorem contains_eq_bit (set : BitSet) (n : Nat) :
    set.contains n = bit (set.words[n / 64]?.getD 0) (n % 64) := by
  unfold contains
  cases set.words[n / 64]? <;> simp

@[simp] theorem contains_ofSize (size n : Nat) : (ofSize size).contains n = false := by
  rw [contains_eq_bit, ofSize, Array.getElem?_replicate]
  split <;> simp

/-- Making room changes no word. -/
private theorem getD_wordsFor (set : BitSet) (m k : Nat) :
    (set.wordsFor m)[k]?.getD 0 = set.words[k]?.getD 0 := by
  rw [wordsFor, Array.getElem?_append]
  split
  · rfl
  · next hk =>
    rw [Array.getElem?_replicate, Array.getElem?_eq_none (Nat.le_of_not_lt hk)]
    split <;> rfl

private theorem lt_size_wordsFor (set : BitSet) (n : Nat) : n / 64 < (set.wordsFor n).size := by
  rw [wordsFor, Array.size_append, Array.size_replicate]
  omega

/-- A number is in the set after an insertion exactly if it was before or is the one inserted. -/
theorem contains_insert (set : BitSet) (n m : Nat) :
    (set.insert n).2.contains m = (set.contains m || decide (n = m)) := by
  unfold insert
  cases hn : set.contains n with
  | true =>
    by_cases h : n = m
    · subst h
      simp [hn]
    · simp [h]
  | false =>
    have hsize := lt_size_wordsFor set n
    simp only [Bool.false_eq_true, if_false]
    rw [contains_eq_bit, contains_eq_bit, ← getD_wordsFor set n (m / 64), Array.getElem?_modify]
    by_cases hword : n / 64 = m / 64
    · -- the word of `m` is the one that changes
      rw [if_pos hword, ← hword, Array.getElem?_eq_getElem hsize, Option.map_some, Option.getD_some,
        Option.getD_some, bit_or_mask _ (Nat.mod_lt _ (by decide)) (Nat.mod_lt _ (by decide))]
      congr 2
      exact propext ⟨fun h => by omega, fun h => by rw [h]⟩
    · have hne : n ≠ m := fun h => hword (by rw [h])
      rw [if_neg hword, decide_eq_false hne, Bool.or_false]

theorem contains_insert_iff {set : BitSet} {n m : Nat} :
    (set.insert n).2.contains m = true ↔ set.contains m = true ∨ n = m := by
  rw [contains_insert, Bool.or_eq_true, decide_eq_true_eq]

/-- Inserting a number that is there changes nothing. -/
theorem insert_of_contains {set : BitSet} {n : Nat} (h : set.contains n = true) :
    set.insert n = (false, set) := by
  simp [insert, h]

/-- Inserting a number that is not there answers that it is new. -/
theorem insert_of_not_contains {set : BitSet} {n : Nat} (h : set.contains n = false) :
    set.insert n = (true, (set.insert n).2) := by
  simp [insert, h]

end TileSelect.BitSet
