import Mathlib.Order.Bounds.Basic
import TileSelect.Selection.Cover
import TileSelect.Proofs.SelectionCompleteness

/-! # The instances of a cover

The cover of a selection is found by going from a node to the inputs of its selected tile.  A node counts as
reached before its inputs are covered and is listed only after them, so at any time the nodes that are reached
and not listed are those on the way from the root; they are later in the table than the node covered next.
This is the invariant that `Settled` keeps, and it makes every input of an instance the node of an earlier
instance. -/
namespace TileSelect.Selection

/-- A node is needed for another: it is the node itself, or needed for an input of its selected tile. -/
inductive Demands (s : Selection) : NodeId → NodeId → Prop where
  | refl (id : NodeId) : Demands s id id
  | step {id input target : NodeId} {a : Annotation} {b : Boundary}
      (ha : s.annotation? id = some a) (hb : a.tile.pattern.boundary s.graph id = .ok b)
      (hinput : input ∈ b.inputs) (tail : Demands s input target) : Demands s id target

theorem Demands.reaches {s : Selection} {id target : NodeId} (h : s.Demands id target) :
    s.graph.Reaches id target := by
  induction h with
  | refl id => exact .refl id
  | step _ hb hinput _ ih => exact (Pattern.reaches_of_mem_inputs hb _ hinput).trans ih

def Selects (s : Selection) (i : Instance) : Prop :=
  (s.annotation? i.node).map Annotation.tile = some i.tile ∧
    i.tile.pattern.boundary s.graph i.node = .ok ⟨i.inputs, i.covered⟩

/-- Every instance of a list has its inputs before it. -/
def InputsFirst (instances : List Instance) : Prop :=
  NeedsFirst Instance.node (fun i input => input ∈ i.inputs) instances

/-- The listed instances are in order, their nodes are reached, and below a bound nothing else is. -/
structure Settled (s : Selection) (bound : NodeId) (state : CoverState) : Prop where
  selects : ∀ i ∈ state.instances, s.Selects i
  inputsFirst : InputsFirst state.instances
  nodup : (state.instances.map Instance.node).Nodup
  reached : ∀ n ∈ state.instances.map Instance.node, state.reached.contains n = true
  listed : ∀ n < bound, state.reached.contains n = true → n ∈ state.instances.map Instance.node

/-- What covering some nodes adds: instances and reached nodes that they demand. -/
structure Grows (s : Selection) (ids : List NodeId) (state state' : CoverState) : Prop where
  instances : ∃ added, state'.instances = state.instances ++ added ∧
    ∀ i ∈ added, ∃ id ∈ ids, s.Demands id i.node
  keeps : ∀ n, state.reached.contains n = true → state'.reached.contains n = true
  reached : ∀ n, state'.reached.contains n = true →
    state.reached.contains n = true ∨ ∃ id ∈ ids, s.Demands id n

theorem Grows.refl (s : Selection) (ids : List NodeId) (state : CoverState) :
    s.Grows ids state state :=
  ⟨⟨[], by simp, by simp⟩, fun _ h => h, fun _ h => Or.inl h⟩

theorem Grows.trans {s : Selection} {ids ids' : List NodeId} {x y z : CoverState}
    (hxy : s.Grows ids x y) (hyz : s.Grows ids' y z) : s.Grows (ids ++ ids') x z := by
  obtain ⟨added, hadded, hdemands⟩ := hxy.instances
  obtain ⟨added', hadded', hdemands'⟩ := hyz.instances
  have hleft : ∀ n, (∃ id ∈ ids, s.Demands id n) → ∃ id ∈ ids ++ ids', s.Demands id n :=
    fun n ⟨id, hid, h⟩ => ⟨id, List.mem_append_left _ hid, h⟩
  have hright : ∀ n, (∃ id ∈ ids', s.Demands id n) → ∃ id ∈ ids ++ ids', s.Demands id n :=
    fun n ⟨id, hid, h⟩ => ⟨id, List.mem_append_right _ hid, h⟩
  refine ⟨⟨added ++ added', by simp [hadded, hadded'], fun i hi => ?_⟩,
    fun n hn => hyz.keeps n (hxy.keeps n hn), fun n hn => ?_⟩
  · rcases List.mem_append.mp hi with hi | hi
    · exact hleft _ (hdemands i hi)
    · exact hright _ (hdemands' i hi)
  · rcases hyz.reached n hn with hn | hn
    · exact (hxy.reached n hn).imp (fun h => h) (hleft n)
    · exact Or.inr (hright n hn)

theorem Grows.mem_map_node {s : Selection} {ids : List NodeId} {state state' : CoverState}
    (h : s.Grows ids state state') {n : NodeId} (hn : n ∈ state.instances.map Instance.node) :
    n ∈ state'.instances.map Instance.node := by
  obtain ⟨added, hadded, -⟩ := h.instances
  rw [hadded, List.map_append, List.mem_append]
  exact Or.inl hn

theorem Grows.map_node_cases {s : Selection} {ids : List NodeId} {state state' : CoverState}
    (h : s.Grows ids state state') {n : NodeId} (hn : n ∈ state'.instances.map Instance.node) :
    n ∈ state.instances.map Instance.node ∨ ∃ id ∈ ids, s.Demands id n := by
  obtain ⟨added, hadded, hdemands⟩ := h.instances
  rw [hadded, List.map_append, List.mem_append] at hn
  refine hn.imp (fun h => h) fun hn => ?_
  obtain ⟨i, hi, rfl⟩ := List.mem_map.mp hn
  exact hdemands i hi

theorem coverNode_of_reached {s : Selection} {id : NodeId} {state : CoverState}
    (h : state.reached.contains id = true) : s.coverNode id state = .ok state := by
  rw [coverNode, BitSet.insert_of_contains h]

/-- The state in which the inputs of a node are covered. -/
def CoverState.enter (state : CoverState) (id : NodeId) : CoverState :=
  { state with reached := (state.reached.insert id).2 }

theorem CoverState.contains_enter {state : CoverState} {id n : NodeId} :
    (state.enter id).reached.contains n = true ↔ state.reached.contains n = true ∨ id = n :=
  BitSet.contains_insert_iff

def CoverState.list (state : CoverState) (i : Instance) : CoverState :=
  { state with instances := state.instances ++ [i] }

theorem coverNode_of_new {s : Selection} {id : NodeId} {state : CoverState} {a : Annotation}
    {b : Boundary} (h : state.reached.contains id = false) (ha : s.annotation? id = some a)
    (hb : a.tile.pattern.boundary s.graph id = .ok b) :
    s.coverNode id state =
      b.inputs.foldlM (fun state input => s.coverNode input state) (state.enter id) >>= fun state =>
        .ok (state.list ⟨id, a.tile, b.inputs, b.interior⟩) := by
  rw [coverNode, BitSet.insert_of_not_contains h]
  simp only [ha]
  split
  · next hb' => cases hb.symm.trans hb'
  · next b' hb' =>
    obtain rfl : b = b' := Except.ok.inj (hb.symm.trans hb')
    rw [List.foldlM_subtype (g := fun state input => s.coverNode input state) fun _ _ _ => rfl,
      List.unattach_attach]
    rfl

/-- Covering a node succeeds, keeps order and lists the node. -/
def Coverable (s : Selection) (bound id : NodeId) : Prop :=
  ∀ state, s.Settled bound state → ∃ state', s.coverNode id state = .ok state' ∧
    s.Settled bound state' ∧ s.Grows [id] state state' ∧ id ∈ state'.instances.map Instance.node

theorem exists_coverNodes {s : Selection} {bound : NodeId} {ids : List NodeId}
    (hids : ∀ id ∈ ids, s.Coverable bound id) {state : CoverState} (h : s.Settled bound state) :
    ∃ state', ids.foldlM (fun state id => s.coverNode id state) state = .ok state' ∧
      s.Settled bound state' ∧ s.Grows ids state state' ∧
      ∀ id ∈ ids, id ∈ state'.instances.map Instance.node := by
  induction ids generalizing state with
  | nil => exact ⟨state, rfl, h, .refl s [] state, by simp⟩
  | cons id ids ih =>
    obtain ⟨middle, hmiddle, hsettled, hgrows, hid⟩ := hids id List.mem_cons_self state h
    obtain ⟨state', hstate', hsettled', hgrows', hall⟩ :=
      ih (fun n hn => hids n (List.mem_cons_of_mem _ hn)) hsettled
    refine ⟨state', ?_, hsettled', hgrows.trans hgrows', fun n hn => ?_⟩
    · rw [List.foldlM_cons, hmiddle, Result.ok_bind, hstate']
    · rcases List.mem_cons.mp hn with rfl | hn
      · exact hgrows'.mem_map_node hid
      · exact hall n hn

/-- A node that is reached first and listed later is left out of account below it. -/
theorem Settled.enter {s : Selection} {bound id : NodeId} {state : CoverState}
    (h : s.Settled bound state) (hlt : id < bound) : s.Settled id (state.enter id) := by
  refine ⟨h.selects, h.inputsFirst, h.nodup, fun n hn => ?_, fun n hn hreached => ?_⟩
  · exact CoverState.contains_enter.mpr (Or.inl (h.reached n hn))
  · rcases CoverState.contains_enter.mp hreached with hreached | rfl
    · exact h.listed n (Nat.lt_trans hn hlt) hreached
    · exact absurd hn (Nat.lt_irrefl _)

/-- Nodes that the inputs of a match demand come before its node. -/
theorem lt_of_demands_input {s : Selection} {id n : NodeId} {p : Pattern} {b : Boundary}
    (hb : p.boundary s.graph id = .ok b) (h : ∃ input ∈ b.inputs, s.Demands input n) : n < id := by
  obtain ⟨input, hinput, hdemands⟩ := h
  exact Nat.lt_of_le_of_lt hdemands.reaches.le (Pattern.lt_of_mem_boundary hb input hinput)

section Listing

variable {s : Selection} {bound id : NodeId} {state middle : CoverState} {a : Annotation}
  {b : Boundary}

/-- Once its inputs are covered, a new node may be listed. -/
theorem Settled.list (h : s.Settled bound state) (hlt : id < bound)
    (hnew : state.reached.contains id = false) (ha : s.annotation? id = some a)
    (hb : a.tile.pattern.boundary s.graph id = .ok b) (hmiddle : s.Settled id middle)
    (hgrows : s.Grows b.inputs (state.enter id) middle)
    (hinputs : ∀ input ∈ b.inputs, input ∈ middle.instances.map Instance.node) :
    s.Settled bound (middle.list ⟨id, a.tile, b.inputs, b.interior⟩) := by
  have hmap : (middle.list ⟨id, a.tile, b.inputs, b.interior⟩).instances.map Instance.node =
      middle.instances.map Instance.node ++ [id] := by
    simp [CoverState.list]
  refine ⟨fun i hi => ?_, ?_, ?_, fun n hn => ?_, fun n hn hreached => ?_⟩
  · rcases List.mem_append.mp hi with hi | hi
    · exact hmiddle.selects i hi
    · obtain rfl := List.mem_singleton.mp hi
      exact ⟨by rw [ha]; rfl, hb⟩
  · exact hmiddle.inputsFirst.concat hinputs
  · have hnot : id ∉ middle.instances.map Instance.node := by
      intro hid
      rcases hgrows.map_node_cases hid with hid | hid
      · rw [h.reached id hid] at hnew
        cases hnew
      · exact Nat.lt_irrefl id (lt_of_demands_input hb hid)
    rw [hmap, ← List.concat_eq_append]
    exact hmiddle.nodup.concat hnot
  · rw [hmap, List.mem_append, List.mem_singleton] at hn
    rcases hn with hn | rfl
    · exact hmiddle.reached n hn
    · exact hgrows.keeps n (CoverState.contains_enter.mpr (Or.inr rfl))
  · rw [hmap, List.mem_append, List.mem_singleton]
    rcases Nat.lt_trichotomy n id with hid | rfl | hid
    · exact Or.inl (hmiddle.listed n hid hreached)
    · exact Or.inr rfl
    · -- nothing as late as this was reached by the inputs
      rcases hgrows.reached n hreached with hold | hnew'
      · rcases CoverState.contains_enter.mp hold with hold | rfl
        · exact Or.inl (hgrows.mem_map_node (h.listed n hn hold))
        · exact Or.inr rfl
      · exact absurd (lt_of_demands_input hb hnew') (Nat.lt_asymm hid)

theorem Grows.list (ha : s.annotation? id = some a)
    (hb : a.tile.pattern.boundary s.graph id = .ok b)
    (hgrows : s.Grows b.inputs (state.enter id) middle) :
    s.Grows [id] state (middle.list ⟨id, a.tile, b.inputs, b.interior⟩) := by
  have hstep : ∀ n, (∃ input ∈ b.inputs, s.Demands input n) → ∃ m ∈ [id], s.Demands m n :=
    fun n ⟨input, hinput, h⟩ => ⟨id, List.mem_singleton.mpr rfl, .step ha hb hinput h⟩
  have hself : ∃ m ∈ [id], s.Demands m id := ⟨id, List.mem_singleton.mpr rfl, .refl id⟩
  obtain ⟨added, hadded, hdemands⟩ := hgrows.instances
  refine ⟨⟨added ++ [⟨id, a.tile, b.inputs, b.interior⟩], ?_, fun i hi => ?_⟩, fun n hn => ?_,
    fun n hn => ?_⟩
  · simp [CoverState.list, hadded, CoverState.enter]
  · rcases List.mem_append.mp hi with hi | hi
    · exact hstep _ (hdemands i hi)
    · rw [List.mem_singleton.mp hi]
      exact hself
  · exact hgrows.keeps n (CoverState.contains_enter.mpr (Or.inl hn))
  · rcases hgrows.reached n hn with hold | hnew
    · rcases CoverState.contains_enter.mp hold with hold | rfl
      · exact Or.inl hold
      · exact Or.inr hself
    · exact Or.inr (hstep n hnew)

end Listing

/-- Every node under which all nodes have selected tiles can be covered. -/
theorem coverable {s : Selection} {id : NodeId}
    (hselected : ∀ n, s.graph.Reaches id n →
      ∃ a b, s.annotation? n = some a ∧ a.tile.pattern.boundary s.graph n = .ok b)
    {bound : NodeId} (hlt : id < bound) : s.Coverable bound id := by
  induction id using Nat.strong_induction_on generalizing bound with
  | _ id ih =>
    intro state h
    cases hreached : state.reached.contains id with
    | true =>
      exact ⟨state, coverNode_of_reached hreached, h, .refl s _ state, h.listed id hlt hreached⟩
    | false =>
      obtain ⟨a, b, ha, hb⟩ := hselected id (.refl id)
      have hbelow : ∀ input ∈ b.inputs, s.Coverable id input := fun input hinput =>
        ih input (Pattern.lt_of_mem_boundary hb input hinput)
          (fun n hn => hselected n ((Pattern.reaches_of_mem_inputs hb input hinput).trans hn))
          (Pattern.lt_of_mem_boundary hb input hinput)
      obtain ⟨middle, hfold, hmiddle, hgrows, hinputs⟩ := exists_coverNodes hbelow (h.enter hlt)
      refine ⟨_, ?_, h.list hlt hreached ha hb hmiddle hgrows hinputs, Grows.list ha hb hgrows, ?_⟩
      · rw [coverNode_of_new hreached ha hb, hfold]
        rfl
      · simp [CoverState.list]

/-- Instances of selected tiles in dependency order, each node once: exactly the nodes that the root demands. -/
structure Covers (s : Selection) (root : NodeId) (instances : List Instance) : Prop where
  selects : ∀ i ∈ instances, s.Selects i
  inputsFirst : InputsFirst instances
  nodup : (instances.map Instance.node).Nodup
  demands : ∀ n ∈ instances.map Instance.node, s.Demands root n
  root : root ∈ instances.map Instance.node

theorem exists_cover {g : Graph} {root : NodeId} {catalog : Catalog} {s : Selection}
    (h : select g root catalog = .ok s) :
    ∃ instances, s.cover = .ok instances ∧ s.Covers root instances := by
  have hvisited := visited_of_select h
  have hselected : ∀ n, s.graph.Reaches root n →
      ∃ a b, s.annotation? n = some a ∧ a.tile.pattern.boundary s.graph n = .ok b := by
    rw [hvisited.graph]
    exact fun n hn => exists_boundary_of_reaches h hn
  have hstart : s.Settled (root + 1) ⟨BitSet.ofSize s.memo.size, []⟩ :=
    ⟨by simp, NeedsFirst.nil, List.nodup_nil, by simp, by simp⟩
  obtain ⟨state, hstate, hsettled, hgrows, hroot⟩ :=
    coverable hselected (Nat.lt_succ_self root) _ hstart
  refine ⟨state.instances, ?_, hsettled.selects, hsettled.inputsFirst, hsettled.nodup,
    fun n hn => ?_, hroot⟩
  · rw [cover, hvisited.root, hstate]
    rfl
  · rcases hgrows.map_node_cases hn with hn | ⟨id, hid, hdemands⟩
    · simp at hn
    · obtain rfl := List.mem_singleton.mp hid
      exact hdemands

/-- A set of nodes that has the root and, with each node, the inputs of its selected tile. -/
structure DemandClosed (s : Selection) (root : NodeId) (nodes : Set NodeId) : Prop where
  root : root ∈ nodes
  inputs : ∀ n ∈ nodes, ∀ a b, s.annotation? n = some a →
    a.tile.pattern.boundary s.graph n = .ok b → ∀ input ∈ b.inputs, input ∈ nodes

theorem DemandClosed.mem_of_demands {s : Selection} {root id n : NodeId} {nodes : Set NodeId}
    (h : s.DemandClosed root nodes) (hdemands : s.Demands id n) (hid : id ∈ nodes) : n ∈ nodes := by
  induction hdemands with
  | refl => exact hid
  | step ha hb hinput _ ih => exact ih (h.inputs _ hid _ _ ha hb _ hinput)

theorem Selects.inputs_eq {s : Selection} {i : Instance} (h : s.Selects i) {a : Annotation}
    {b : Boundary} (ha : s.annotation? i.node = some a)
    (hb : a.tile.pattern.boundary s.graph i.node = .ok b) : b.inputs = i.inputs := by
  obtain ⟨htile, hboundary⟩ := h
  have hsame : a.tile = i.tile := by
    rw [ha, Option.map_some] at htile
    exact Option.some.inj htile
  rw [hsame, hboundary] at hb
  rw [← Except.ok.inj hb]

/-- Instances of selected tiles that have their inputs before them are closed under inputs. -/
theorem demandClosed_map_node {s : Selection} {root : NodeId} {instances : List Instance}
    (hselects : ∀ i ∈ instances, s.Selects i) (hfirst : InputsFirst instances)
    (hroot : root ∈ instances.map Instance.node) :
    s.DemandClosed root {n | n ∈ instances.map Instance.node} := by
  refine ⟨hroot, fun n hn a b ha hb input hinput => ?_⟩
  obtain ⟨i, hi, rfl⟩ := List.mem_map.mp hn
  rw [(hselects i hi).inputs_eq ha hb] at hinput
  exact NeedsFirst.mem_of_mem hfirst hi hinput

/-- A node that was not reached is listed after everything that covering it lists. -/
theorem getLast?_of_coverNode {s : Selection} {id : NodeId} {state state' : CoverState}
    {a : Annotation} {b : Boundary} (hnew : state.reached.contains id = false)
    (ha : s.annotation? id = some a) (hb : a.tile.pattern.boundary s.graph id = .ok b)
    (h : s.coverNode id state = .ok state') :
    state'.instances.getLast? = some ⟨id, a.tile, b.inputs, b.interior⟩ := by
  rw [coverNode_of_new hnew ha hb] at h
  obtain ⟨middle, -, hlist⟩ := Result.bind_eq_ok_iff.mp h
  obtain rfl := Except.ok.inj hlist
  simp [CoverState.list]

/-- The last instance of a cover is that of the root. -/
theorem getLast?_cover {g : Graph} {root : NodeId} {catalog : Catalog} {s : Selection}
    (h : select g root catalog = .ok s) {instances : List Instance}
    (hcover : s.cover = .ok instances) :
    ∃ last, instances.getLast? = some last ∧ last.node = root := by
  have hvisited := visited_of_select h
  obtain ⟨a, b, ha, hb⟩ := exists_boundary_of_reaches h (.refl root)
  rw [← hvisited.graph] at hb
  obtain ⟨state, hstate, hlist⟩ := Result.bind_eq_ok_iff.mp hcover
  obtain rfl := Except.ok.inj hlist
  rw [hvisited.root] at hstate
  exact ⟨_, getLast?_of_coverNode (BitSet.contains_ofSize _ _) ha hb hstate, rfl⟩

/-- The cover of a selection can always be listed.  Its nodes are different and form the least set that has the
root and is closed under the inputs of selected tiles; every instance has the selected tile of its node and the
boundary of that tile there; its inputs are nodes of earlier instances; and the root comes last. -/
theorem cover_least_demanded {g : Graph} {root : NodeId} {catalog : Catalog} {s : Selection}
    (h : select g root catalog = .ok s) :
    ∃ instances, s.cover = .ok instances ∧
      (instances.map Instance.node).Nodup ∧
      IsLeast {nodes | s.DemandClosed root nodes} {n | n ∈ instances.map Instance.node} ∧
      (∀ i ∈ instances, ∃ a, s.annotation? i.node = some a ∧ i.tile = a.tile ∧
        a.tile.pattern.boundary g i.node = .ok ⟨i.inputs, i.covered⟩) ∧
      (∀ before i after, instances = before ++ i :: after →
        ∀ input ∈ i.inputs, input ∈ before.map Instance.node) ∧
      ∃ last, instances.getLast? = some last ∧ last.node = root := by
  obtain ⟨instances, hcover, hselects, hfirst, hnodup, hdemands, hroot⟩ := exists_cover h
  refine ⟨instances, hcover, hnodup, ⟨demandClosed_map_node hselects hfirst hroot, ?_⟩, ?_, hfirst,
    getLast?_cover h hcover⟩
  · intro nodes hnodes n hn
    exact hnodes.mem_of_demands (hdemands n hn) hnodes.root
  · intro i hi
    obtain ⟨htile, hboundary⟩ := hselects i hi
    obtain ⟨a, ha, hsame⟩ := Option.map_eq_some_iff.mp htile
    refine ⟨a, ha, hsame.symm, ?_⟩
    rw [hsame, ← (visited_of_select h).graph]
    exact hboundary

/-- The product is taken into the sum and still listed for the other operand. -/
theorem cover_least_demanded_productTwice :
    ∃ s instances, select productTwice 3 Catalog.standard = .ok s ∧ s.cover = .ok instances ∧
      instances.map Instance.node = [0, 1, 2, 3] ∧
      IsLeast {nodes | s.DemandClosed 3 nodes} {n | n ∈ [0, 1, 2, 3]} := by
  have hrun : (select productTwice 3 Catalog.standard).map
      (fun s => s.cover.map (List.map Instance.node)) = .ok (.ok [0, 1, 2, 3]) := by
    decide +kernel
  obtain ⟨s, hs, hnodes⟩ := Result.map_eq_ok_iff.mp hrun
  obtain ⟨instances, hcover, -, hleast, -⟩ := cover_least_demanded hs
  have hmap : instances.map Instance.node = [0, 1, 2, 3] := by
    rw [hcover] at hnodes
    exact Except.ok.inj hnodes
  exact ⟨s, instances, hs, hcover, hmap, hmap ▸ hleast⟩

end TileSelect.Selection
