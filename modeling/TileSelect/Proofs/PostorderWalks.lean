import Mathlib.Data.Set.Card
import TileSelect.Graph.Builder
import TileSelect.Proofs.PostorderTraversal

/-! # What the walks list

Every task of the plain walk owes a list of nodes: the tree under a node that is still to be entered, or the one
node that is to be left.  The walk lists what its tasks owe, one task after another.  A path starts at a node and
goes on to the left or to the right operand at each step; the tree under a node has one place for every such
path, so the plain walk lists a node as often as there are paths to it from the root.  The other walk leaves out
all places of a node but the first. -/
namespace TileSelect

inductive Side where
  | left
  | right
  deriving DecidableEq

def Node.operand? : Node → Side → Option NodeId
  | leaf _, _ => none
  | binary _ _ lhs _, .left => some lhs
  | binary _ _ _ rhs, .right => some rhs

namespace Graph

def Task.id : Task → NodeId
  | enter id => id
  | leave id => id

variable {g : Graph} {id lhs rhs : NodeId} {name : String} {op : Opcode}

/-- What a task still adds to the list, with all the tasks it leads to. -/
def owed (g : Graph) : Task → List NodeId
  | .enter id => g.unfolded id
  | .leave id => [id]

/-- Tasks at nodes of the graph lead to tasks at nodes of the graph, so that the walk never breaks off. -/
theorem walk_eq_flatMap {tasks : List Task} (h : ∀ task ∈ tasks, task.id < g.size) :
    g.walk tasks = .ok (tasks.flatMap g.owed) := by
  fun_induction walk g tasks with
  | case1 => rfl
  | case2 id tasks ih =>
    obtain ⟨hhead, hrest⟩ := List.forall_mem_cons.mp h
    have hid : id < g.size := hhead
    obtain ⟨node, hnode⟩ := exists_node_of_lt hid
    rw [ih hrest, node_eq_ok_iff.mpr hnode]
    rfl
  | case3 id tasks hnode =>
    obtain ⟨node, hnode'⟩ := exists_node_of_lt (h (.enter id) List.mem_cons_self)
    cases hnode.symm.trans hnode'
  | case4 id tasks name hnode ih =>
    rw [ih (List.forall_mem_cons.mp h).2, List.flatMap_cons, owed, unfolded_leaf hnode]
    rfl
  | case5 id tasks name op lhs rhs hnode ih =>
    obtain ⟨hid, hrest⟩ := List.forall_mem_cons.mp h
    obtain ⟨hl, hr⟩ := lt_of_node? hnode
    have hnew : ∀ task ∈ Task.enter lhs :: .enter rhs :: .leave id :: tasks, task.id < g.size :=
      List.forall_mem_cons.mpr ⟨Nat.lt_trans hl hid,
        List.forall_mem_cons.mpr ⟨Nat.lt_trans hr hid, List.forall_mem_cons.mpr ⟨hid, hrest⟩⟩⟩
    -- the three new tasks owe the tree of the node in its three parts
    rw [ih hnew, List.flatMap_cons, List.flatMap_cons, List.flatMap_cons, List.flatMap_cons]
    simp only [owed, unfolded_binary hnode, List.append_assoc]

theorem postorder_eq {root : NodeId} (hroot : root < g.size) :
    g.postorder root = .ok (g.unfolded root) := by
  have htask : ∀ task ∈ [Task.enter root], task.id < g.size := List.forall_mem_singleton.mpr hroot
  rw [postorder, walk_eq_flatMap htask, List.flatMap_singleton, owed]

def follow (g : Graph) : NodeId → List Side → Option NodeId
  | id, [] => some id
  | id, side :: path =>
    ((g.node? id).bind (·.operand? side)).bind fun operand => g.follow operand path

theorem follow_leaf (hnode : g.node? id = some (.leaf name)) (side : Side) (path : List Side) :
    g.follow id (side :: path) = none := by
  rw [follow, hnode]
  rfl

theorem follow_left (hnode : g.node? id = some (.binary name op lhs rhs)) (path : List Side) :
    g.follow id (.left :: path) = g.follow lhs path := by
  rw [follow, hnode]
  rfl

theorem follow_right (hnode : g.node? id = some (.binary name op lhs rhs)) (path : List Side) :
    g.follow id (.right :: path) = g.follow rhs path := by
  rw [follow, hnode]
  rfl

/-- The paths from a node, in the order in which they lead to the places of its tree. -/
structure Traces (g : Graph) (id : NodeId) (paths : List (List Side)) : Prop where
  nodup : paths.Nodup
  complete : ∀ path n, g.follow id path = some n → path ∈ paths
  targets : paths.map (g.follow id) = (g.unfolded id).map some

theorem traces_leaf (hnode : g.node? id = some (.leaf name)) : g.Traces id [[]] := by
  refine ⟨List.nodup_singleton _, ?_, ?_⟩
  · intro path n hpath
    cases path with
    | nil => exact List.mem_singleton_self _
    | cons side path =>
      rw [follow_leaf hnode] at hpath
      cases hpath
  · rw [unfolded_leaf hnode]
    rfl

theorem traces_binary (hnode : g.node? id = some (.binary name op lhs rhs))
    {lefts rights : List (List Side)} (hl : g.Traces lhs lefts) (hr : g.Traces rhs rights) :
    g.Traces id (lefts.map (.left :: ·) ++ rights.map (.right :: ·) ++ [[]]) := by
  refine ⟨?_, ?_, ?_⟩
  · have hlefts : (lefts.map (Side.left :: ·)).Nodup := hl.nodup.map (List.cons_injective)
    have hrights : (rights.map (Side.right :: ·)).Nodup := hr.nodup.map (List.cons_injective)
    apply List.Nodup.append
    · apply hlefts.append hrights
      intro path hleft hright
      obtain ⟨_, -, rfl⟩ := List.mem_map.mp hleft
      simp at hright
    · exact List.nodup_singleton _
    · simp
  · intro path n hpath
    cases path with
    | nil => simp
    | cons side path =>
      cases side with
      | left =>
        rw [follow_left hnode] at hpath
        simpa using hl.complete path n hpath
      | right =>
        rw [follow_right hnode] at hpath
        simpa using hr.complete path n hpath
  · have hleft : (g.follow id ∘ (Side.left :: ·)) = g.follow lhs := funext (follow_left hnode)
    have hright : (g.follow id ∘ (Side.right :: ·)) = g.follow rhs := funext (follow_right hnode)
    rw [unfolded_binary hnode, List.map_append, List.map_append, List.map_append, List.map_append,
      List.map_map, List.map_map, hleft, hright, hl.targets, hr.targets]
    rfl

theorem exists_traces (hid : id < g.size) : ∃ paths, g.Traces id paths := by
  induction id, hid using node_induction with
  | leaf id name hnode => exact ⟨_, traces_leaf hnode⟩
  | binary id name op lhs rhs hnode _ _ ihl ihr =>
    obtain ⟨lefts, hlefts⟩ := ihl
    obtain ⟨rights, hrights⟩ := ihr
    exact ⟨_, traces_binary hnode hlefts hrights⟩

theorem Traces.encard_eq {paths : List (List Side)} (h : g.Traces id paths) (n : NodeId) :
    {path | g.follow id path = some n}.encard = (g.unfolded id).count n := by
  have hset : {path | g.follow id path = some n} =
      ((paths.filter (g.follow id · == some n)).toFinset : Set (List Side)) := by
    ext path
    simp only [Set.mem_ofPred_eq, List.coe_toFinset, List.mem_filter, beq_iff_eq]
    exact ⟨fun hpath => ⟨h.complete path n hpath, hpath⟩, fun hpath => hpath.2⟩
  rw [hset, Set.encard_coe_eq_coe_finsetCard, List.toFinset_card_of_nodup (h.nodup.filter _)]
  congr 1
  calc (paths.filter (g.follow id · == some n)).length
      = (paths.map (g.follow id)).count (some n) := by
        rw [List.count, List.countP_map, List.countP_eq_length_filter]
        rfl
    _ = ((g.unfolded id).map some).count (some n) := by rw [h.targets]
    _ = (g.unfolded id).count n := List.count_map_of_injective _ _ (Option.some_injective _) n

/-- From a root of the graph the plain walk lists the tree under it: a leaf alone, and a binary node after the tree
of its left operand and the tree of its right operand.  It meets no node outside the graph, and it lists a node as
often as there are paths from the root to it. -/
theorem postorder_lists_paths {root : NodeId} (hroot : root < g.size) :
    g.postorder root = .ok (g.unfolded root) ∧
    (∀ id name, g.node? id = some (.leaf name) → g.unfolded id = [id]) ∧
    (∀ id name op lhs rhs, g.node? id = some (.binary name op lhs rhs) →
      g.unfolded id = g.unfolded lhs ++ g.unfolded rhs ++ [id]) ∧
    (∀ n ∈ g.unfolded root, n < g.size) ∧
    ∀ n, {path | g.follow root path = some n}.encard = (g.unfolded root).count n := by
  refine ⟨postorder_eq hroot, fun _ _ => unfolded_leaf, fun _ _ _ _ _ => unfolded_binary, ?_, ?_⟩
  · intro n hn
    exact ((mem_unfolded hroot n).mp hn).lt_size hroot
  · intro n
    obtain ⟨paths, hpaths⟩ := exists_traces hroot
    exact hpaths.encard_eq n

theorem postorder_lists_paths_productTwice :
    ∃ g, build ⟨[], [⟨.mul, "t", "a", "b"⟩, ⟨.add, "u", "t", "t"⟩]⟩ {} = .ok g ∧
      g.postorder 3 = .ok [0, 1, 2, 0, 1, 2, 3] ∧
      {path | g.follow 3 path = some 2}.encard = 2 := by
  obtain ⟨g, hg, hsize, hwalk⟩ :
      ∃ g, build ⟨[], [⟨.mul, "t", "a", "b"⟩, ⟨.add, "u", "t", "t"⟩]⟩ {} = .ok g ∧ 3 < g.size ∧
        g.postorder 3 = .ok [0, 1, 2, 0, 1, 2, 3] :=
    ⟨_, rfl, by decide, by decide +kernel⟩
  obtain ⟨hlist, -, -, -, hcount⟩ := postorder_lists_paths hsize
  have hunfolded := Except.ok.inj (hlist.symm.trans hwalk)
  refine ⟨g, hg, hwalk, ?_⟩
  rw [hcount 2, hunfolded]
  rfl

/-- Where everything is under one node, that node stands last, as all the others stand before it. -/
theorem OperandsFirst.getLast? {ids : List NodeId} (h : g.OperandsFirst ids) (hnodup : ids.Nodup)
    {root : NodeId} (hroot : root ∈ ids) (hunder : ∀ n ∈ ids, g.Reaches root n) :
    ids.getLast? = some root := by
  obtain ⟨before, after, rfl⟩ := List.append_of_mem hroot
  have hafter : after = [] := by
    apply List.eq_nil_iff_forall_not_mem.mpr
    intro n hn
    have hnot : n ∉ before ++ [root] := by
      rw [List.append_cons] at hnodup
      exact fun hbefore => List.disjoint_of_nodup_append hnodup hbefore hn
    have hne : n ≠ root := fun heq => hnot (by simp [heq])
    have hreaches := hunder n (List.mem_append_right _ (List.mem_cons_of_mem _ hn))
    exact hnot (List.mem_append_left _ (h.mem_before hreaches hne))
  rw [hafter, List.getLast?_concat]

/-- From a root of the graph, the walk that lists each node once lists what the plain walk lists with all places of
a node but its first left out.  These are the nodes under the root, once each, every node after its operands and the
root at the end. -/
theorem postorderOnce_refines_postorder {root : NodeId} (hroot : root < g.size) :
    ∃ walk order, g.postorder root = .ok walk ∧ g.postorderOnce root = .ok order ∧
      order = walk.eraseDups ∧ order.Nodup ∧ (∀ n, n ∈ order ↔ g.Reaches root n) ∧
      (∀ before id after, order = before ++ id :: after →
        ∀ operand, g.Uses id operand → operand ∈ before) ∧
      order.getLast? = some root := by
  have hmem : ∀ n, n ∈ (g.unfolded root).eraseDups ↔ g.Reaches root n := by
    intro n
    rw [List.mem_eraseDups, mem_unfolded hroot]
  have hfirst : g.OperandsFirst (g.unfolded root).eraseDups := (operandsFirst_unfolded hroot).eraseDups
  have hnodup := nodup_eraseDups (g.unfolded root)
  refine ⟨_, _, postorder_eq hroot, postorderOnce_eq hroot, rfl, hnodup, hmem, ?_, ?_⟩
  · intro before id after heq operand huses
    simpa using hfirst before id after heq operand huses
  · apply hfirst.getLast? hnodup
    · exact (hmem root).mpr (.refl root)
    · exact fun n hn => (hmem n).mp hn

theorem postorderOnce_refines_postorder_productTwice :
    ∃ g, build ⟨[], [⟨.mul, "t", "a", "b"⟩, ⟨.add, "u", "t", "t"⟩]⟩ {} = .ok g ∧
      g.postorder 3 = .ok [0, 1, 2, 0, 1, 2, 3] ∧ g.postorderOnce 3 = .ok [0, 1, 2, 3] := by
  obtain ⟨g, hg, hsize, hwalk⟩ :
      ∃ g, build ⟨[], [⟨.mul, "t", "a", "b"⟩, ⟨.add, "u", "t", "t"⟩]⟩ {} = .ok g ∧ 3 < g.size ∧
        g.postorder 3 = .ok [0, 1, 2, 0, 1, 2, 3] :=
    ⟨_, rfl, by decide, by decide +kernel⟩
  obtain ⟨walk, order, hlist, honce, rfl, -⟩ := postorderOnce_refines_postorder hsize
  cases hlist.symm.trans hwalk
  exact ⟨g, hg, hwalk, honce⟩

end Graph
end TileSelect
