import Mathlib.Data.Finset.Card
import Mathlib.Data.Finset.Range
import TileSelect.Proofs.BitSetMembership

/-! # Counting the numbers of a bit set

The ones in the words of a set are its numbers below 64 times the number of words, and there are no others.  So
the count of a set, like everything else that can be asked of it, depends only on the numbers that were inserted. -/
namespace TileSelect.BitSet

theorem lt_of_contains {set : BitSet} {n : Nat} (h : set.contains n = true) : n < 64 * set.words.size := by
  by_contra hn
  rw [contains, Array.getElem?_eq_none (by omega)] at h
  cases h

/-- The ones in some words are numbered through, 64 to a word. -/
theorem sum_ones (words : List UInt64) :
    words.foldr (fun word total => ones word + total) 0 =
      (List.range (64 * words.length)).countP fun n => bit (words[n / 64]?.getD 0) (n % 64) := by
  induction words with
  | nil => rfl
  | cons word words ih =>
    -- the first 64 places belong to the first word, the others are moved by 64
    have hfirst : (List.range 64).countP (fun n => bit ((word :: words)[n / 64]?.getD 0) (n % 64)) = ones word := by
      apply List.countP_congr
      intro n hn
      have hlt := List.mem_range.mp hn
      rw [Nat.div_eq_of_lt hlt, Nat.mod_eq_of_lt hlt]
      rfl
    have hrest : ((List.range (64 * words.length)).map (64 + ·)).countP
        (fun n => bit ((word :: words)[n / 64]?.getD 0) (n % 64)) =
        words.foldr (fun word total => ones word + total) 0 := by
      rw [ih, List.countP_map]
      apply List.countP_congr
      intro n _
      rw [Function.comp_apply, Nat.add_mod_left, Nat.add_div_left n (by decide), List.getElem?_cons_succ]
    have hrange : 64 * (word :: words).length = 64 + 64 * words.length := by
      rw [List.length_cons]
      omega
    rw [hrange, List.range_add, List.countP_append, hfirst, hrest]
    rfl

theorem count_eq_countP (set : BitSet) :
    set.count = (List.range (64 * set.words.size)).countP set.contains := by
  rw [count, sum_ones, Array.length_toList]
  apply List.countP_congr
  intro n _
  rw [contains_eq_bit, Array.getElem?_toList]

theorem count_le (set : BitSet) : set.count ≤ 64 * set.words.size := by
  rw [count_eq_countP]
  exact List.countP_le_length.trans_eq List.length_range

/-- The count of a set is the number of its numbers. -/
theorem count_eq_card {set : BitSet} {numbers : Finset Nat}
    (h : ∀ n, set.contains n = true ↔ n ∈ numbers) : set.count = numbers.card := by
  have hnumbers : numbers = ((List.range (64 * set.words.size)).filter set.contains).toFinset := by
    ext n
    rw [List.mem_toFinset, List.mem_filter, List.mem_range, ← h]
    exact ⟨fun hn => ⟨lt_of_contains hn, hn⟩, And.right⟩
  have hnodup : ((List.range (64 * set.words.size)).filter set.contains).Nodup := List.nodup_range.filter _
  rw [count_eq_countP, List.countP_eq_length_filter, hnumbers, List.toFinset_card_of_nodup hnodup]

/-- The set with numbers inserted from left to right. -/
def insertAll (set : BitSet) (numbers : List Nat) : BitSet := numbers.foldl (fun set n => (set.insert n).2) set

theorem contains_insertAll {set : BitSet} {numbers : List Nat} {n : Nat} :
    (set.insertAll numbers).contains n = true ↔ set.contains n = true ∨ n ∈ numbers := by
  induction numbers generalizing set with
  | nil => simp [insertAll]
  | cons m numbers ih =>
    have hstep : set.insertAll (m :: numbers) = (set.insert m).2.insertAll numbers := rfl
    rw [hstep, ih, contains_insert_iff, List.mem_cons, or_assoc, eq_comm (a := m)]

theorem contains_of_ofSize? {size : Nat} {set : BitSet} (h : ofSize? size = .ok set) (n : Nat) :
    set.contains n = false := by
  unfold ofSize? at h
  split at h
  · cases h
  · obtain rfl := Except.ok.inj h
    exact contains_ofSize size n

theorem insert_fst_iff {set : BitSet} {n : Nat} : (set.insert n).1 = true ↔ ¬set.contains n = true := by
  cases h : set.contains n with
  | true => simp [insert_of_contains h]
  | false => simp [insert, h]

/-- A set starts empty whatever room was asked for, and stands for the finite set of the numbers inserted since: it
contains these and no others, says of a further number whether it is new, and counts each of them once.  The count is
never more than the bits of its words. -/
theorem insertAll_refines_finset {size : Nat} {start : BitSet} (h : ofSize? size = .ok start)
    (numbers : List Nat) :
    let set := start.insertAll numbers
    (∀ n, set.contains n = true ↔ n ∈ numbers) ∧ (∀ n, (set.insert n).1 = true ↔ n ∉ numbers) ∧
      set.count = numbers.toFinset.card ∧ set.count ≤ 64 * set.words.size := by
  intro set
  have hmem : ∀ n, set.contains n = true ↔ n ∈ numbers := by
    intro n
    have hempty := contains_of_ofSize? h n
    rw [contains_insertAll, hempty]
    simp
  refine ⟨hmem, ?_, ?_, set.count_le⟩
  · intro n
    rw [insert_fst_iff, hmem]
  · apply count_eq_card
    intro n
    rw [hmem, List.mem_toFinset]

/-- The largest size wraps around to no room at all, and the set grows all the same. -/
theorem insertAll_refines_finset_wrapped :
    ofSize? 0xFFFFFFFFFFFFFFFF = .ok ⟨#[]⟩ ∧
      let set := insertAll ⟨#[]⟩ [64, 3, 64]
      set.contains 64 = true ∧ (set.insert 3).1 = false ∧ (set.insert 0xFFFFFFFFFFFFFFFF).1 = true ∧
        set.count = 2 := by
  have hstart : ofSize? 0xFFFFFFFFFFFFFFFF = .ok ⟨#[]⟩ := rfl
  obtain ⟨hmem, hnew, hcount, -⟩ := insertAll_refines_finset hstart [64, 3, 64]
  refine ⟨hstart, (hmem 64).mpr (by decide), ?_, (hnew _).mpr (by decide), hcount⟩
  rw [← Bool.not_eq_true, hnew]
  decide

end TileSelect.BitSet
