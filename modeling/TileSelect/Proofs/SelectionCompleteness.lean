import TileSelect.Proofs.PostorderTraversal
import TileSelect.Proofs.SelectionInvariant

/-! # When selection succeeds

Nodes are visited with everything under them done, so that no visit meets an input without a price or a node
that has its annotation already.  A selection can then fail in one way only: it comes to a node that no tile
matches, and that is the first such node of the walk.  If there is none, exactly the nodes under the root are
annotated, in the order of the walk. -/
namespace TileSelect.Selection

/-- Visiting nodes one after another does all of them, or stops at the first that no tile matches. -/
theorem Visited.run {g : Graph} {root : NodeId} {catalog : Catalog} {done : List NodeId}
    {s : Selection} (h : Visited g root catalog done s) {rest : List NodeId}
    (hfirst : g.OperandsFirst (done ++ rest)) (hnodup : (done ++ rest).Nodup)
    (hrange : ∀ id ∈ rest, id < g.size) :
    ((∀ id ∈ rest, catalog.matchesAt g id = true) ∧
      ∃ s', rest.foldlM (visit catalog) s = .ok s' ∧ Visited g root catalog (done ++ rest) s') ∨
    ∃ id node, rest.find? (fun n => !catalog.matchesAt g n) = some id ∧ g.node? id = some node ∧
      rest.foldlM (visit catalog) s = .error (.noCover node.name node.opcode) := by
  induction rest generalizing done s with
  | nil =>
    rw [List.append_nil]
    exact Or.inl ⟨by simp, s, rfl, h⟩
  | cons id rest ih =>
    have hid : id < g.size := hrange id List.mem_cons_self
    cases hmatch : catalog.matchesAt g id with
    | false =>
      obtain ⟨node, hnode⟩ := Graph.exists_node_of_lt hid
      refine Or.inr ⟨id, node, by simp [hmatch], hnode, ?_⟩
      rw [List.foldlM_cons, h.visit_error hnode hmatch]
      rfl
    | true =>
      have hnew : id ∉ done := by
        rw [List.nodup_middle, List.nodup_cons, List.mem_append, not_or] at hnodup
        exact hnodup.1.1
      obtain ⟨s', hs', h'⟩ := h.visit_ok hid hnew (fun n => hfirst.mem_before) hmatch
      have hsplit : done ++ id :: rest = done ++ [id] ++ rest := by simp
      rw [hsplit] at hfirst hnodup ⊢
      have hrange' : ∀ n ∈ rest, n < g.size := fun n hn => hrange n (List.mem_cons_of_mem _ hn)
      rcases ih h' hfirst hnodup hrange' with ⟨hall, t, ht, hvisited⟩ | ⟨n, node, hfind, hnode, herror⟩
      · refine Or.inl ⟨?_, t, ?_, hvisited⟩
        · intro n hn
          rcases List.mem_cons.mp hn with rfl | hn
          · exact hmatch
          · exact hall n hn
        · rw [List.foldlM_cons, hs', Result.ok_bind, ht]
      · refine Or.inr ⟨n, node, ?_, hnode, ?_⟩
        · rw [List.find?_cons, hmatch]
          exact hfind
        · rw [List.foldlM_cons, hs', Result.ok_bind, herror]

/-- Selection from a root of the graph: either every node of the walk is matched and all of them are done, or
the first that is not matched is the error. -/
theorem select_cases {g : Graph} {root : NodeId} (hroot : root < g.size) (catalog : Catalog) :
    ((∀ id ∈ (g.unfolded root).eraseDups, catalog.matchesAt g id = true) ∧
      ∃ s, select g root catalog = .ok s ∧
        Visited g root catalog (g.unfolded root).eraseDups s) ∨
    ∃ id node, (g.unfolded root).eraseDups.find? (fun n => !catalog.matchesAt g n) = some id ∧
      g.node? id = some node ∧
      select g root catalog = .error (.noCover node.name node.opcode) := by
  have hselect : select g root catalog =
      (g.unfolded root).eraseDups.foldlM (visit catalog) (start g root) := by
    rw [select, Graph.postorderOnce_eq hroot]
    rfl
  rw [hselect]
  apply (visited_start g root catalog).run
  · exact (Graph.operandsFirst_unfolded hroot).eraseDups
  · exact Graph.nodup_eraseDups _
  · intro id hid
    exact ((Graph.mem_unfolded hroot id).mp (List.mem_eraseDups.mp hid)).lt_size hroot

theorem lt_size_of_select {g : Graph} {root : NodeId} {catalog : Catalog} {s : Selection}
    (h : select g root catalog = .ok s) : root < g.size := by
  rw [select, Result.bind_eq_ok_iff] at h
  obtain ⟨order, horder, -⟩ := h
  by_contra hroot
  rw [Graph.postorderOnce_eq_error hroot] at horder
  cases horder

/-- A selection that succeeds has visited the nodes of the walk. -/
theorem visited_of_select {g : Graph} {root : NodeId} {catalog : Catalog} {s : Selection}
    (h : select g root catalog = .ok s) :
    Visited g root catalog (g.unfolded root).eraseDups s := by
  rcases select_cases (lt_size_of_select h) catalog with
    ⟨-, s', hs', hvisited⟩ | ⟨id, node, -, -, herror⟩
  · obtain rfl : s' = s := Except.ok.inj (hs'.symm.trans h)
    exact hvisited
  · cases herror.symm.trans h

theorem exists_annotation_of_reaches {g : Graph} {root : NodeId} {catalog : Catalog} {s : Selection}
    (h : select g root catalog = .ok s) {id : NodeId} (hid : g.Reaches root id) :
    ∃ a, s.annotation? id = some a := by
  rw [(visited_of_select h).annotated, List.mem_eraseDups, Graph.mem_unfolded (lt_size_of_select h)]
  exact hid

theorem matchesAt_of_select {g : Graph} {root : NodeId} {catalog : Catalog} {s : Selection}
    (h : select g root catalog = .ok s) {id : NodeId} (hid : g.Reaches root id) :
    catalog.matchesAt g id = true := by
  obtain ⟨a, ha⟩ := exists_annotation_of_reaches h hid
  obtain ⟨hmem, haccepts⟩ := (visited_of_select h).tile_accepts ha
  exact Catalog.matchesAt_iff.mpr ⟨a.tile, hmem, haccepts⟩

theorem exists_select_of_matched {g : Graph} {root : NodeId} (hroot : root < g.size) {catalog : Catalog}
    (h : ∀ id, g.Reaches root id → catalog.matchesAt g id = true) :
    ∃ s, select g root catalog = .ok s := by
  rcases select_cases hroot catalog with ⟨-, s, hs, -⟩ | ⟨id, node, hfind, -, -⟩
  · exact ⟨s, hs⟩
  · have hid : g.Reaches root id := by
      rw [← Graph.mem_unfolded hroot, ← List.mem_eraseDups]
      exact List.mem_of_find?_eq_some hfind
    have hunmatched := List.find?_some hfind
    simp [h id hid] at hunmatched

/-- Every node under the root has a selected tile, which has a boundary there. -/
theorem exists_boundary_of_reaches {g : Graph} {root : NodeId} {catalog : Catalog} {s : Selection}
    (h : select g root catalog = .ok s) {id : NodeId} (hid : g.Reaches root id) :
    ∃ a b, s.annotation? id = some a ∧ a.tile.pattern.boundary g id = .ok b := by
  obtain ⟨a, ha⟩ := exists_annotation_of_reaches h hid
  obtain ⟨b, hb⟩ := Pattern.exists_boundary ((visited_of_select h).tile_accepts ha).2
  exact ⟨a, b, ha, hb⟩

theorem Visited.map_annotations {g : Graph} {root : NodeId} {catalog : Catalog} {done : List NodeId}
    {s : Selection} (h : Visited g root catalog done s) :
    s.annotations.map some = done.map s.annotation? := by
  have hall : ∀ ids : List NodeId, (∀ id ∈ ids, id ∈ done) →
      (ids.filterMap s.annotation?).map some = ids.map s.annotation? := by
    intro ids hids
    induction ids with
    | nil => rfl
    | cons id ids ih =>
      obtain ⟨a, ha⟩ := (h.annotated id).mpr (hids id List.mem_cons_self)
      rw [List.filterMap_cons_some ha, List.map_cons, List.map_cons, ha,
        ih fun n hn => hids n (List.mem_cons_of_mem _ hn)]
  rw [annotations, h.order]
  exact hall done fun _ hid => hid

theorem Visited.map_node_annotations {g : Graph} {root : NodeId} {catalog : Catalog}
    {done : List NodeId} {s : Selection} (h : Visited g root catalog done s) :
    s.annotations.map Annotation.node = done := by
  have hnode : ∀ id ∈ done, (s.annotation? id).map Annotation.node = some id := by
    intro id hid
    obtain ⟨a, ha⟩ := (h.annotated id).mpr hid
    rw [ha, Option.map_some, node_of_choose (h.chosen id a ha)]
  have hsome : (s.annotations.map Annotation.node).map some = done.map some := by
    calc (s.annotations.map Annotation.node).map some
        = (s.annotations.map some).map (Option.map Annotation.node) := by simp
      _ = done.map fun id => (s.annotation? id).map Annotation.node := by
        rw [h.map_annotations, List.map_map]
        rfl
      _ = done.map some := List.map_congr_left hnode
  exact List.map_injective_iff.mpr (Option.some_injective _) hsome

/-- Selection from a root of the graph succeeds exactly if some tile matches every node under the root.
Otherwise its error names the first node of the walk that no tile matches, so that it never fails by a fault.
If it succeeds, the annotated nodes are those under the root, listed once each in the order of the walk. -/
theorem select_complete {g : Graph} {root : NodeId} (hroot : root < g.size) (catalog : Catalog) :
    ∃ order, g.postorderOnce root = .ok order ∧ order.Nodup ∧
      (∀ id, id ∈ order ↔ g.Reaches root id) ∧ (∀ id ∈ order, id < g.size) ∧
      ((∃ s, select g root catalog = .ok s) ↔
        ∀ id, g.Reaches root id → ∃ tile ∈ catalog.tiles, tile.pattern.accepts g id = true) ∧
      ((¬∀ id, g.Reaches root id → ∃ tile ∈ catalog.tiles, tile.pattern.accepts g id = true) →
        ∃ id node, order.find? (fun n => !catalog.matchesAt g n) = some id ∧
          g.node? id = some node ∧
          select g root catalog = .error (.noCover node.name node.opcode)) ∧
      (∀ fault, select g root catalog ≠ .error (.fault fault)) ∧
      ∀ s, select g root catalog = .ok s →
        (∀ id, (s.annotation? id).isSome = true ↔ g.Reaches root id) ∧
        s.annotations.map some = order.map s.annotation? ∧
        s.annotations.map Annotation.node = order := by
  have hmem : ∀ id, id ∈ (g.unfolded root).eraseDups ↔ g.Reaches root id := fun id =>
    List.mem_eraseDups.trans (Graph.mem_unfolded hroot id)
  refine ⟨(g.unfolded root).eraseDups, Graph.postorderOnce_eq hroot, Graph.nodup_eraseDups _, hmem,
    fun id hid => ((hmem id).mp hid).lt_size hroot, ?_⟩
  have hsuccess : ∀ s, select g root catalog = .ok s →
      (∀ id, (s.annotation? id).isSome = true ↔ g.Reaches root id) ∧
      s.annotations.map some = (g.unfolded root).eraseDups.map s.annotation? ∧
      s.annotations.map Annotation.node = (g.unfolded root).eraseDups := by
    intro s hs
    have hvisited := visited_of_select hs
    refine ⟨fun id => ?_, hvisited.map_annotations, hvisited.map_node_annotations⟩
    rw [Option.isSome_iff_exists, hvisited.annotated, hmem]
  rcases select_cases hroot catalog with ⟨hall, s, hs, -⟩ | ⟨id, node, hfind, hnode, herror⟩
  · have hcover : ∀ id, g.Reaches root id →
        ∃ tile ∈ catalog.tiles, tile.pattern.accepts g id = true := fun id hid =>
      Catalog.matchesAt_iff.mp (hall id ((hmem id).mpr hid))
    refine ⟨⟨fun _ => hcover, fun _ => ⟨s, hs⟩⟩, fun h => absurd hcover h, fun fault => ?_, hsuccess⟩
    rw [hs]
    exact fun h => by cases h
  · have hid : g.Reaches root id := (hmem id).mp (List.mem_of_find?_eq_some hfind)
    have hunmatched : ¬∃ tile ∈ catalog.tiles, tile.pattern.accepts g id = true := by
      rw [← Catalog.matchesAt_iff]
      simpa using List.find?_some hfind
    refine ⟨⟨fun ⟨s, hs⟩ => ?_, fun h => absurd (h id hid) hunmatched⟩,
      fun _ => ⟨id, node, hfind, hnode, herror⟩, fun fault => ?_, hsuccess⟩
    · cases herror.symm.trans hs
    · rw [herror]
      exact fun h => by cases h

/-- The graph of `t = mul a, b` and `u = add t, t`, where one value is used twice. -/
def productTwice : Graph :=
  let product := ((Graph.empty.push (.leaf "a") (by simp [Node.operands])).push (.leaf "b")
    (by simp [Node.operands])).push (.binary "t" .mul 0 1) (by decide)
  product.push (.binary "u" .add 2 2) (by decide)

/-- The graph of `t = mul a, b`, `w = mul c, d` and `u = add t, w`, where no value is used twice. -/
def productsApart : Graph :=
  let leaves := (((Graph.empty.push (.leaf "a") (by simp [Node.operands])).push (.leaf "b")
    (by simp [Node.operands])).push (.leaf "c") (by simp [Node.operands])).push (.leaf "d")
    (by simp [Node.operands])
  ((leaves.push (.binary "t" .mul 0 1) (by decide)).push (.binary "w" .mul 2 3) (by decide)).push
    (.binary "u" .add 4 5) (by decide)

theorem exists_select_productTwice : ∃ s, select productTwice 3 Catalog.standard = .ok s := by
  have hrun : (select productTwice 3 Catalog.standard).map Selection.order = .ok [0, 1, 2, 3] := by
    decide +kernel
  obtain ⟨s, hs, -⟩ := Result.map_eq_ok_iff.mp hrun
  exact ⟨s, hs⟩

theorem select_complete_productTwice :
    ∃ s, select productTwice 3 Catalog.standard = .ok s ∧
      s.annotations.map Annotation.node = [0, 1, 2, 3] := by
  obtain ⟨order, horder, -, -, -, -, -, -, hsuccess⟩ :=
    select_complete (by decide : 3 < productTwice.size) Catalog.standard
  have hwalk : productTwice.postorderOnce 3 = .ok [0, 1, 2, 3] := by decide +kernel
  obtain rfl : order = [0, 1, 2, 3] := Except.ok.inj (horder.symm.trans hwalk)
  obtain ⟨s, hs⟩ := exists_select_productTwice
  exact ⟨s, hs, (hsuccess s hs).2.2⟩

end TileSelect.Selection
