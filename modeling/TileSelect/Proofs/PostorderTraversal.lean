import TileSelect.Graph.Traversal
import TileSelect.Proofs.BitSetMembership
import TileSelect.Proofs.GraphReachability
import Mathlib.Data.List.Nodup

/-! # The walk that lists each node once

The walk with a set of entered nodes lists what the tree under the root lists, every node at its first place.
The set is not closed under operands while the walk is under way, as nodes that are entered and not yet left
are in it too; but those are later in the table than anything the walk still enters, so that below the node
entered next the set is closed.  This is the invariant of the walk. -/
namespace TileSelect.Graph

/-- The nodes of a list that a set does not have, each at its first place. -/
def fresh (seen : BitSet) (ids : List NodeId) : List NodeId :=
  (ids.filter fun id => !seen.contains id).eraseDups

theorem fresh_singleton {seen : BitSet} {id : NodeId} (h : seen.contains id = false) :
    fresh seen [id] = [id] := by
  simp [fresh, h, List.eraseDups_cons]

theorem fresh_eq_nil {seen : BitSet} {ids : List NodeId}
    (h : ∀ id ∈ ids, seen.contains id = true) : fresh seen ids = [] := by
  have hnone : ids.filter (fun id => !seen.contains id) = [] := by
    rw [List.filter_eq_nil_iff]
    intro id hid
    simp [h id hid]
  rw [fresh, hnone, List.eraseDups_nil]

/-- What is fresh depends only on which nodes of the list are in the set. -/
theorem fresh_congr {seen seen' : BitSet} {ids : List NodeId}
    (h : ∀ id ∈ ids, seen.contains id = seen'.contains id) : fresh seen ids = fresh seen' ids := by
  unfold fresh
  congr 1
  apply List.filter_congr
  intro id hid
  rw [h id hid]

/-- Of two lists one after the other, the second is fresh where the first did not have its nodes. -/
theorem fresh_append {seen after : BitSet} {xs ys : List NodeId}
    (h : ∀ id ∈ ys, after.contains id = true ↔ seen.contains id = true ∨ id ∈ xs) :
    fresh seen (xs ++ ys) = fresh seen xs ++ fresh after ys := by
  unfold fresh
  rw [List.filter_append, List.eraseDups_append]
  congr 2
  rw [List.removeAll, List.filter_filter]
  apply List.filter_congr
  intro id hid
  have hafter := h id hid
  rw [Bool.eq_iff_iff]
  simp only [Bool.and_eq_true, Bool.not_eq_true', List.elem_eq_contains, List.contains_eq_mem,
    List.mem_filter, ← Bool.not_eq_true, decide_eq_true_eq, hafter]
  tauto

/-- Everything under the nodes of a set up to a bound is in the set. -/
def ClosedUpTo (g : Graph) (seen : BitSet) (bound : NodeId) : Prop :=
  ∀ n ≤ bound, seen.contains n = true → ∀ m, g.Reaches n m → seen.contains m = true

section Steps

variable {g : Graph} {seen : BitSet} {id : NodeId} (tasks : List Task)

theorem walkUnique_nil : g.walkUnique seen [] = .ok [] := by rw [walkUnique]

theorem walkUnique_leave (hid : id < g.size) :
    g.walkUnique seen (.leave id :: tasks) = (id :: ·) <$> g.walkUnique seen tasks := by
  obtain ⟨node, hnode⟩ := exists_node_of_lt hid
  rw [walkUnique, node_eq_ok_iff.mpr hnode]
  rfl

theorem walkUnique_enter_seen (hid : id < g.size) (h : seen.contains id = true) :
    g.walkUnique seen (.enter id :: tasks) = g.walkUnique seen tasks := by
  obtain ⟨node, hnode⟩ := exists_node_of_lt hid
  rw [walkUnique, BitSet.insert_of_contains h]
  split <;> simp_all

theorem walkUnique_enter_leaf {name : String} (h : seen.contains id = false)
    (hnode : g.node? id = some (.leaf name)) :
    g.walkUnique seen (.enter id :: tasks) = (id :: ·) <$> g.walkUnique (seen.insert id).2 tasks := by
  rw [walkUnique, BitSet.insert_of_not_contains h]
  split <;> simp_all

theorem walkUnique_enter_binary {name : String} {op : Opcode} {lhs rhs : NodeId}
    (h : seen.contains id = false) (hnode : g.node? id = some (.binary name op lhs rhs)) :
    g.walkUnique seen (.enter id :: tasks) =
      g.walkUnique (seen.insert id).2 (.enter lhs :: .enter rhs :: .leave id :: tasks) := by
  rw [walkUnique, BitSet.insert_of_not_contains h]
  split <;> simp_all

end Steps

/-- Entering a node keeps the set closed below it: the node itself is too late to count. -/
private theorem ClosedUpTo.insert {g : Graph} {seen : BitSet} {id bound : NodeId}
    (h : g.ClosedUpTo seen id) (hlt : bound < id) : g.ClosedUpTo (seen.insert id).2 bound := by
  intro n hn hin m hm
  have hlt' : n < id := Nat.lt_of_le_of_lt hn hlt
  rw [BitSet.contains_insert_iff] at hin ⊢
  rcases hin with hin | rfl
  · exact Or.inl (h n (Nat.le_of_lt hlt') hin m hm)
  · exact absurd hlt' (Nat.lt_irrefl _)

/-- Having walked under a node keeps the set closed. -/
private theorem ClosedUpTo.union {g : Graph} {seen after : BitSet} {id bound : NodeId}
    (h : g.ClosedUpTo seen bound)
    (hafter : ∀ n, after.contains n = true ↔ seen.contains n = true ∨ g.Reaches id n) :
    g.ClosedUpTo after bound := by
  intro n hn hin m hm
  rw [hafter] at hin ⊢
  rcases hin with hin | hin
  · exact Or.inl (h n hn hin m hm)
  · exact Or.inr (hin.trans hm)

/-- What entering a node comes to, whatever is left to do afterwards: it lists what is fresh of the tree under
the node, and the set has that tree from then on. -/
def Walked (g : Graph) (seen : BitSet) (id : NodeId) : Prop :=
  ∃ after : BitSet,
    (∀ n, after.contains n = true ↔ seen.contains n = true ∨ g.Reaches id n) ∧
    ∀ tasks, g.walkUnique seen (.enter id :: tasks) =
      (fresh seen (g.unfolded id) ++ ·) <$> g.walkUnique after tasks

private theorem walked_of_contains {g : Graph} {id : NodeId} (hid : id < g.size) {seen : BitSet}
    (hclosed : g.ClosedUpTo seen id) (hseen : seen.contains id = true) : g.Walked seen id := by
  have hall := hclosed id (Nat.le_refl id) hseen
  refine ⟨seen, fun n => ⟨Or.inl, fun h => h.elim (fun hn => hn) (hall n)⟩, fun tasks => ?_⟩
  have hfresh : fresh seen (g.unfolded id) = [] :=
    fresh_eq_nil fun n hn => hall n ((mem_unfolded hid n).mp hn)
  simp only [walkUnique_enter_seen tasks hid hseen, hfresh, List.nil_append, id_map']

private theorem walked_leaf {g : Graph} {id : NodeId} {name : String} {seen : BitSet}
    (hnode : g.node? id = some (.leaf name)) (hseen : seen.contains id = false) :
    g.Walked seen id := by
  refine ⟨(seen.insert id).2, fun n => ?_, fun tasks => ?_⟩
  · rw [BitSet.contains_insert_iff, reaches_leaf hnode, eq_comm (a := id)]
  · rw [walkUnique_enter_leaf tasks hseen hnode, unfolded_leaf hnode, fresh_singleton hseen]
    rfl

private theorem walked_binary {g : Graph} {id lhs rhs : NodeId} {name : String} {op : Opcode}
    {seen : BitSet} (hnode : g.node? id = some (.binary name op lhs rhs))
    (hclosed : g.ClosedUpTo seen id) (hseen : seen.contains id = false)
    (ihl : ∀ seen, g.ClosedUpTo seen lhs → g.Walked seen lhs)
    (ihr : ∀ seen, g.ClosedUpTo seen rhs → g.Walked seen rhs) : g.Walked seen id := by
  obtain ⟨hl, hr⟩ := lt_of_node? hnode
  have hid := lt_size_of_node? hnode
  -- the set after the left operand, then after the right one
  obtain ⟨middle, hmiddle, hwalkl⟩ := ihl (seen.insert id).2 (hclosed.insert hl)
  obtain ⟨after, hafter, hwalkr⟩ := ihr middle ((hclosed.insert hr).union hmiddle)
  have hmeml := mem_unfolded (Nat.lt_trans hl hid)
  have hmemr := mem_unfolded (Nat.lt_trans hr hid)
  have hnel : ∀ n ∈ g.unfolded lhs, id ≠ n := fun n hn h =>
    absurd (h ▸ ((hmeml n).mp hn).le) (Nat.not_le_of_lt hl)
  have hner : ∀ n ∈ g.unfolded rhs, id ≠ n := fun n hn h =>
    absurd (h ▸ ((hmemr n).mp hn).le) (Nat.not_le_of_lt hr)
  refine ⟨after, fun n => ?_, fun tasks => ?_⟩
  · rw [hafter, hmiddle, BitSet.contains_insert_iff, reaches_binary hnode, eq_comm (a := id)]
    tauto
  · have hleft : fresh (seen.insert id).2 (g.unfolded lhs) = fresh seen (g.unfolded lhs) := by
      apply fresh_congr
      intro n hn
      rw [BitSet.contains_insert, decide_eq_false (hnel n hn), Bool.or_false]
    have hboth : fresh seen (g.unfolded lhs ++ g.unfolded rhs) =
        fresh seen (g.unfolded lhs) ++ fresh middle (g.unfolded rhs) := by
      apply fresh_append
      intro n hn
      have hne := hner n hn
      rw [hmiddle, BitSet.contains_insert_iff, hmeml]
      tauto
    have hlast : fresh seen (g.unfolded lhs ++ g.unfolded rhs ++ [id]) =
        fresh seen (g.unfolded lhs ++ g.unfolded rhs) ++ fresh seen [id] := by
      apply fresh_append
      intro n hn
      obtain rfl := List.mem_singleton.mp hn
      have hnot : n ∉ g.unfolded lhs ++ g.unfolded rhs := fun h =>
        (List.mem_append.mp h).elim (fun h => hnel n h rfl) (fun h => hner n h rfl)
      tauto
    rw [walkUnique_enter_binary tasks hseen hnode, hwalkl, hwalkr, walkUnique_leave tasks hid,
      unfolded_binary hnode, hlast, hboth, hleft, fresh_singleton hseen]
    simp

/-- Every node of the graph may be entered once the set is closed below it. -/
theorem walked_of_closedUpTo {g : Graph} {id : NodeId} (hid : id < g.size) (seen : BitSet)
    (hclosed : g.ClosedUpTo seen id) : g.Walked seen id := by
  induction id, hid using node_induction generalizing seen with
  | leaf id name hnode =>
    cases hseen : seen.contains id with
    | true => exact walked_of_contains (lt_size_of_node? hnode) hclosed hseen
    | false => exact walked_leaf hnode hseen
  | binary id name op lhs rhs hnode _ _ ihl ihr =>
    cases hseen : seen.contains id with
    | true => exact walked_of_contains (lt_size_of_node? hnode) hclosed hseen
    | false => exact walked_binary hnode hclosed hseen ihl ihr

/-- The walk lists the tree under the root, every node at its first place. -/
theorem postorderOnce_eq {g : Graph} {root : NodeId} (hroot : root < g.size) :
    g.postorderOnce root = .ok (g.unfolded root).eraseDups := by
  have hclosed : g.ClosedUpTo (BitSet.ofSize g.size) root := by
    intro n _ hn
    simp at hn
  obtain ⟨after, -, hwalk⟩ := walked_of_closedUpTo hroot _ hclosed
  have hfresh : fresh (BitSet.ofSize g.size) (g.unfolded root) = (g.unfolded root).eraseDups := by
    simp [fresh]
  rw [postorderOnce, hwalk, walkUnique_nil, hfresh, Except.map_ok, List.append_nil]

/-- A root outside the graph is not walked. -/
theorem postorderOnce_eq_error {g : Graph} {root : NodeId} (hroot : ¬ root < g.size) :
    g.postorderOnce root = .error .outOfRange := by
  rw [postorderOnce, walkUnique]
  split
  · rfl
  all_goals exact absurd (lt_size_of_node? ‹_›) hroot

theorem nodup_eraseDups {α : Type} [BEq α] [LawfulBEq α] (xs : List α) : xs.eraseDups.Nodup := by
  cases xs with
  | nil => exact List.nodup_nil
  | cons x xs =>
    have hlength : (xs.filter fun y => !y == x).length < xs.length + 1 :=
      Nat.lt_succ_of_le (List.length_filter_le _ xs)
    rw [List.eraseDups_cons, List.nodup_cons]
    exact ⟨by simp, nodup_eraseDups _⟩
termination_by xs.length

/-- Leaving out repetitions leaves operands first. -/
theorem OperandsFirst.eraseDups {g : Graph} {ids : List NodeId} (h : g.OperandsFirst ids) :
    g.OperandsFirst ids.eraseDups := by
  intro before id after heq n hn
  have hmem : id ∈ ids := List.mem_eraseDups.mp (by simp [heq])
  obtain ⟨xs, ys, hids, hfirst⟩ := List.eq_append_cons_of_mem hmem
  have hsplit : ids.eraseDups =
      xs.eraseDups ++ id :: ((ys.removeAll xs).filter fun n => !n == id).eraseDups := by
    rw [hids, List.eraseDups_append, List.cons_removeAll, if_pos (by simpa using hfirst),
      List.eraseDups_cons]
  -- `id` stands only once without repetitions, so both ways to split there are the same
  have honce : id ∉ before ∧ id ∉ after := by
    have hnodup := nodup_eraseDups ids
    rw [heq, List.nodup_middle, List.nodup_cons, List.mem_append, not_or] at hnodup
    exact hnodup.1
  have hbefore : before = xs.eraseDups :=
    ((List.append_cons_inj_of_notMem honce.1 honce.2).mp (heq.symm.trans hsplit)).1
  have hn' := h xs id ys hids n hn
  rw [List.map_id'] at hn' ⊢
  rw [hbefore, List.mem_eraseDups]
  exact hn'

end TileSelect.Graph
