import TileSelect.Selection.Basic
import TileSelect.Proofs.PatternBoundary

/-! # What a selection under way has done

Visiting a node looks at the annotations of earlier nodes only, and annotations are never changed.  So what was
chosen for a node when it was visited is what would be chosen for it in any later selection: every annotation
is the choice that the selection itself makes at its node.  This, with the nodes done so far, is the invariant
of selection. -/
namespace TileSelect

def Catalog.matchesAt (catalog : Catalog) (g : Graph) (id : NodeId) : Bool :=
  catalog.tiles.any fun tile => tile.pattern.accepts g id

theorem Catalog.matchesAt_iff {catalog : Catalog} {g : Graph} {id : NodeId} :
    catalog.matchesAt g id = true ↔ ∃ tile ∈ catalog.tiles, tile.pattern.accepts g id = true :=
  List.any_eq_true

namespace Selection

theorem price_eq_ok_iff {s : Selection} {id : NodeId} {cost : UInt64} :
    s.price id = .ok cost ↔ ∃ a, s.annotation? id = some a ∧ a.cost = cost := by
  unfold price
  cases s.annotation? id <;> simp

/-- Nodes have prices exactly if they have annotations. -/
theorem mapM_price_eq_ok_iff {s : Selection} {ids : List NodeId} {prices : List UInt64} :
    ids.mapM s.price = .ok prices ↔
      ∃ found : List Annotation, ids.map s.annotation? = found.map some ∧
        prices = found.map Annotation.cost := by
  rw [Result.mapM_eq_ok_iff]
  induction ids generalizing prices with
  | nil =>
    constructor
    · intro h
      exact ⟨[], rfl, List.map_eq_nil_iff.mp h.symm⟩
    · rintro ⟨found, hfound, rfl⟩
      obtain rfl := List.map_eq_nil_iff.mp hfound.symm
      rfl
  | cons id ids ih =>
    constructor
    · intro h
      cases prices with
      | nil => simp at h
      | cons cost prices =>
        obtain ⟨hhead, hrest⟩ := List.cons.inj h
        obtain ⟨a, ha, rfl⟩ := price_eq_ok_iff.mp hhead
        obtain ⟨found, hfound, rfl⟩ := ih.mp hrest
        exact ⟨a :: found, by simp [ha, hfound], rfl⟩
    · rintro ⟨found, hfound, rfl⟩
      cases found with
      | nil => simp at hfound
      | cons a found =>
        obtain ⟨hhead, hrest⟩ := List.cons.inj hfound
        rw [List.map_cons, List.map_cons, List.map_cons, ih.mpr ⟨found, hrest, rfl⟩,
          price_eq_ok_iff.mpr ⟨a, hhead, rfl⟩]

/-- A candidate is made from the annotations of the inputs of its tile. -/
theorem candidate_eq_ok_iff {s : Selection} {id : NodeId} {tile : Tile} {a : Annotation} :
    s.candidate id tile = .ok a ↔
      ∃ (b : Boundary) (found : List Annotation), tile.pattern.boundary s.graph id = .ok b ∧
        b.inputs.map s.annotation? = found.map some ∧
        a = ⟨id, tile, tile.loc,
          Cost.add tile.cost (Cost.total (found.map Annotation.cost))⟩ := by
  simp only [candidate, inputsPrice, Result.bind_eq_ok_iff, mapM_price_eq_ok_iff, Except.ok.injEq]
  constructor
  · rintro ⟨_, ⟨b, hb, _, ⟨found, hfound, rfl⟩, rfl⟩, rfl⟩
    exact ⟨b, found, hb, hfound, rfl⟩
  · rintro ⟨b, found, hb, hfound, rfl⟩
    exact ⟨_, ⟨b, hb, _, ⟨found, hfound, rfl⟩, rfl⟩, rfl⟩

/-- At a node of the graph the tests all answer, and every tile that matches is priced. -/
theorem candidates_eq {s : Selection} {id : NodeId} (hid : id < s.graph.size) (catalog : Catalog) :
    s.candidates catalog id =
      (catalog.tiles.filter fun tile => tile.pattern.accepts s.graph id).mapM (s.candidate id) := by
  apply Result.filterMapM_eq_mapM_filter
  intro tile
  rw [Pattern.test_eq, if_pos hid]
  rfl

/-- Outside the graph there are candidates, namely none, only if there are no tiles. -/
theorem mapM_candidate_eq_ok {s : Selection} {catalog : Catalog} {id : NodeId} {found : List Annotation}
    (h : s.candidates catalog id = .ok found) :
    (catalog.tiles.filter fun tile => tile.pattern.accepts s.graph id).mapM (s.candidate id) = .ok found := by
  by_cases hid : id < s.graph.size
  · rwa [candidates_eq hid] at h
  · unfold candidates at h
    cases htiles : catalog.tiles with
    | nil => rwa [htiles] at h
    | cons tile tiles =>
      rw [htiles, List.filterMapM_cons, Pattern.test_eq, if_neg hid] at h
      cases h

theorem mem_of_candidates_eq_ok {s : Selection} {catalog : Catalog} {id : NodeId}
    {found : List Annotation} (h : s.candidates catalog id = .ok found) {a : Annotation} :
    a ∈ found ↔ ∃ tile ∈ catalog.tiles, tile.pattern.accepts s.graph id = true ∧
      s.candidate id tile = .ok a := by
  rw [Result.mem_of_mapM_eq_ok (mapM_candidate_eq_ok h)]
  simp only [List.mem_filter, and_assoc]

theorem exists_candidate_of_candidates_eq_ok {s : Selection} {catalog : Catalog} {id : NodeId}
    {found : List Annotation} (h : s.candidates catalog id = .ok found) {tile : Tile}
    (htile : tile ∈ catalog.tiles) (haccepts : tile.pattern.accepts s.graph id = true) :
    ∃ a ∈ found, s.candidate id tile = .ok a :=
  Result.exists_mem_of_mapM_eq_ok (mapM_candidate_eq_ok h) (List.mem_filter.mpr ⟨htile, haccepts⟩)

/-- A choice is made among the candidates at a node of the graph. -/
theorem choose_eq_ok_iff {s : Selection} {catalog : Catalog} {id : NodeId} {a : Annotation} :
    s.choose catalog id = .ok a ↔
      id < s.graph.size ∧ ∃ found, s.candidates catalog id = .ok found ∧ cheapest? found = some a := by
  have hnode : (∃ node, s.graph.node id = .ok node) ↔ id < s.graph.size := by
    simp only [Graph.node_eq_ok_iff]
    exact ⟨fun ⟨_, h⟩ => Graph.lt_size_of_node? h, Graph.exists_node_of_lt⟩
  rw [choose, Result.bind_eq_ok_iff, ← hnode]
  simp only [Result.bind_eq_ok_iff, Result.mapError_eq_ok_iff]
  constructor
  · rintro ⟨node, hnode, found, hfound, hchoice⟩
    cases hcheapest : cheapest? found with
    | none => simp [hcheapest] at hchoice
    | some b =>
      simp only [hcheapest, Except.ok.injEq] at hchoice
      exact ⟨⟨node, hnode⟩, found, hfound, by rw [hcheapest, hchoice]⟩
  · rintro ⟨⟨node, hnode⟩, found, hfound, hcheapest⟩
    exact ⟨node, hnode, found, hfound, by rw [hcheapest]⟩

/-- The first of the cheapest is one of them and no other is cheaper. -/
theorem cheapest?_spec {found : List Annotation} {a : Annotation} (h : cheapest? found = some a) :
    a ∈ found ∧ ∀ b ∈ found, a.cost ≤ b.cost := by
  induction found generalizing a with
  | nil => cases h
  | cons c rest ih =>
    rw [cheapest?] at h
    cases hrest : cheapest? rest with
    | none =>
      obtain rfl : c = a := by simpa [hrest] using h
      obtain rfl := (cheapest?_eq_none_iff rest).mp hrest
      simp
    | some b =>
      obtain ⟨hmem, hle⟩ := ih hrest
      simp only [hrest] at h
      split at h
      · next hlt =>
        obtain rfl : b = a := Option.some.inj h
        refine ⟨List.mem_cons_of_mem _ hmem, fun d hd => ?_⟩
        rcases List.mem_cons.mp hd with rfl | hd
        · exact UInt64.le_of_lt hlt
        · exact hle d hd
      · next hlt =>
        obtain rfl : c = a := Option.some.inj h
        have hcb : c.cost ≤ b.cost := UInt64.not_lt.mp hlt
        refine ⟨List.mem_cons_self, fun d hd => ?_⟩
        rcases List.mem_cons.mp hd with rfl | hd
        · exact UInt64.le_refl _
        · exact UInt64.le_trans hcb (hle d hd)

structure Extends (s s' : Selection) : Prop where
  graph : s'.graph = s.graph
  annotation? : ∀ id a, s.annotation? id = some a → s'.annotation? id = some a

/-- Once a tile has a price at a node, further annotations do not change it. -/
theorem Extends.candidate {s s' : Selection} (h : Extends s s') {id : NodeId} {tile : Tile}
    {a : Annotation} (hcandidate : s.candidate id tile = .ok a) : s'.candidate id tile = .ok a := by
  obtain ⟨b, found, hb, hfound, rfl⟩ := candidate_eq_ok_iff.mp hcandidate
  refine candidate_eq_ok_iff.mpr ⟨b, found, by rw [h.graph, hb], ?_, rfl⟩
  rw [← hfound]
  apply List.map_congr_left
  intro input hinput
  have hmem : s.annotation? input ∈ found.map some := hfound ▸ List.mem_map_of_mem hinput
  obtain ⟨c, -, hc⟩ := List.mem_map.mp hmem
  rw [← hc, h.annotation? input c hc.symm]

/-- Once a choice could be made at a node, further annotations do not change it. -/
theorem Extends.choose {s s' : Selection} (h : Extends s s') {catalog : Catalog} {id : NodeId}
    {a : Annotation} (hchoose : s.choose catalog id = .ok a) : s'.choose catalog id = .ok a := by
  obtain ⟨hid, found, hfound, hcheapest⟩ := choose_eq_ok_iff.mp hchoose
  refine choose_eq_ok_iff.mpr ⟨by rw [h.graph]; exact hid, found, ?_, hcheapest⟩
  have hid' : id < s'.graph.size := by rw [h.graph]; exact hid
  rw [candidates_eq hid', h.graph]
  exact Result.mapM_mono (fun tile _ a ha => h.candidate ha) (mapM_candidate_eq_ok hfound)

def annotated (s : Selection) (a : Annotation) : Selection :=
  { s with memo := s.memo.modify a.node fun _ => some a, order := s.order ++ [a.node] }

theorem annotate_eq_ok {s : Selection} {a : Annotation} (hlt : a.node < s.memo.size)
    (hnew : s.annotation? a.node = none) : s.annotate a = .ok (s.annotated a) := by
  have hmemo : s.memo[a.node]? = some none := by
    rw [annotation?, Array.getElem?_eq_getElem hlt, Option.join_some] at hnew
    rw [Array.getElem?_eq_getElem hlt, hnew]
  rw [annotate, hmemo]
  rfl

theorem annotation?_annotated {s : Selection} {a : Annotation} (hlt : a.node < s.memo.size)
    (id : NodeId) :
    (s.annotated a).annotation? id = if a.node = id then some a else s.annotation? id := by
  rw [annotation?, annotated, Array.getElem?_modify]
  split
  · next h =>
    rw [← h, Array.getElem?_eq_getElem hlt]
    rfl
  · rfl

theorem extends_annotated {s : Selection} {a : Annotation} (hlt : a.node < s.memo.size)
    (hnew : s.annotation? a.node = none) : Extends s (s.annotated a) := by
  refine ⟨rfl, fun id b hb => ?_⟩
  rw [annotation?_annotated hlt, if_neg, hb]
  rintro rfl
  rw [hnew] at hb
  cases hb

theorem node_of_choose {s : Selection} {catalog : Catalog} {id : NodeId} {a : Annotation}
    (h : s.choose catalog id = .ok a) : a.node = id := by
  obtain ⟨-, found, hfound, hcheapest⟩ := choose_eq_ok_iff.mp h
  obtain ⟨tile, -, -, hcandidate⟩ :=
    (mem_of_candidates_eq_ok hfound).mp (cheapest?_spec hcheapest).1
  obtain ⟨_, _, -, -, rfl⟩ := candidate_eq_ok_iff.mp hcandidate
  rfl

/-- The given nodes, and no others, are annotated, in that order, each with the choice made at it. -/
structure Visited (g : Graph) (root : NodeId) (catalog : Catalog) (done : List NodeId)
    (s : Selection) : Prop where
  graph : s.graph = g
  root : s.root = root
  size : s.memo.size = g.size
  order : s.order = done
  annotated : ∀ id, (∃ a, s.annotation? id = some a) ↔ id ∈ done
  chosen : ∀ id a, s.annotation? id = some a → s.choose catalog id = .ok a

theorem visited_start (g : Graph) (root : NodeId) (catalog : Catalog) :
    Visited g root catalog [] (start g root) := by
  have hnone : ∀ id, (start g root).annotation? id = none := by
    intro id
    rw [annotation?, start, Array.getElem?_replicate]
    split <;> rfl
  refine ⟨rfl, rfl, by simp [start, Graph.size], rfl, fun id => ?_, fun id a h => ?_⟩
  · simp [hnone]
  · rw [hnone] at h
    cases h

section Step

variable {g : Graph} {root : NodeId} {catalog : Catalog} {done : List NodeId} {s : Selection}
  {id : NodeId}

theorem Visited.tile_accepts (h : Visited g root catalog done s) {a : Annotation}
    (ha : s.annotation? id = some a) :
    a.tile ∈ catalog.tiles ∧ a.tile.pattern.accepts g id = true := by
  obtain ⟨-, found, hfound, hcheapest⟩ := choose_eq_ok_iff.mp (h.chosen id a ha)
  obtain ⟨tile, htile, haccepts, hcandidate⟩ :=
    (mem_of_candidates_eq_ok hfound).mp (cheapest?_spec hcheapest).1
  obtain ⟨_, _, -, -, rfl⟩ := candidate_eq_ok_iff.mp hcandidate
  exact ⟨htile, h.graph ▸ haccepts⟩

/-- A tile that matches has a price once everything under the node is done. -/
theorem Visited.exists_candidate (h : Visited g root catalog done s)
    (hunder : ∀ n, g.Reaches id n → n ≠ id → n ∈ done) {tile : Tile}
    (hmatch : tile.pattern.accepts g id = true) : ∃ a, s.candidate id tile = .ok a := by
  obtain ⟨b, hb⟩ := Pattern.exists_boundary hmatch
  have hprice : ∀ input ∈ b.inputs, ∃ cost, s.price input = .ok cost := by
    intro input hinput
    have hne : input ≠ id := Nat.ne_of_lt (Pattern.lt_of_mem_boundary hb input hinput)
    obtain ⟨a, ha⟩ := (h.annotated input).mpr
      (hunder input (Pattern.reaches_of_mem_inputs hb input hinput) hne)
    exact ⟨a.cost, price_eq_ok_iff.mpr ⟨a, ha, rfl⟩⟩
  obtain ⟨prices, hprices⟩ := Result.exists_mapM_eq_ok hprice
  obtain ⟨found, hfound, -⟩ := mapM_price_eq_ok_iff.mp hprices
  exact ⟨_, candidate_eq_ok_iff.mpr ⟨b, found, by rw [h.graph, hb], hfound, rfl⟩⟩

theorem Visited.exists_candidates (h : Visited g root catalog done s) (hid : id < g.size)
    (hunder : ∀ n, g.Reaches id n → n ≠ id → n ∈ done) :
    ∃ found, s.candidates catalog id = .ok found := by
  rw [candidates_eq (by rw [h.graph]; exact hid)]
  apply Result.exists_mapM_eq_ok
  intro tile htile
  rw [h.graph] at htile
  exact h.exists_candidate hunder (List.mem_filter.mp htile).2

/-- A node that some tile matches is visited with success. -/
theorem Visited.visit_ok (h : Visited g root catalog done s) (hid : id < g.size) (hnew : id ∉ done)
    (hunder : ∀ n, g.Reaches id n → n ≠ id → n ∈ done) (hmatch : catalog.matchesAt g id = true) :
    ∃ s', visit catalog s id = .ok s' ∧ Visited g root catalog (done ++ [id]) s' := by
  obtain ⟨found, hfound⟩ := h.exists_candidates hid hunder
  obtain ⟨tile, htile, haccepts⟩ := Catalog.matchesAt_iff.mp hmatch
  obtain ⟨c, hc⟩ := h.exists_candidate hunder haccepts
  have hcmem : c ∈ found :=
    (mem_of_candidates_eq_ok hfound).mpr ⟨tile, htile, by rw [h.graph, haccepts], hc⟩
  obtain ⟨a, ha⟩ : ∃ a, cheapest? found = some a := by
    rw [← Option.isSome_iff_exists, Option.isSome_iff_ne_none, Ne, cheapest?_eq_none_iff]
    exact List.ne_nil_of_mem hcmem
  have hchoose : s.choose catalog id = .ok a :=
    choose_eq_ok_iff.mpr ⟨by rw [h.graph]; exact hid, found, hfound, ha⟩
  obtain rfl := node_of_choose hchoose
  have hlt : a.node < s.memo.size := by rw [h.size]; exact hid
  have hnone : s.annotation? a.node = none := by
    rw [Option.eq_none_iff_forall_ne_some]
    exact fun b hb => hnew ((h.annotated a.node).mp ⟨b, hb⟩)
  have hextends := extends_annotated hlt hnone
  refine ⟨s.annotated a, ?_, ?_⟩
  · rw [visit, hchoose, Result.ok_bind, annotate_eq_ok hlt hnone]
    rfl
  · refine ⟨h.graph, h.root, by simp [Selection.annotated, h.size],
      by simp [Selection.annotated, h.order], ?_, ?_⟩
    · intro n
      rw [annotation?_annotated hlt, List.mem_append, List.mem_singleton]
      by_cases hn : a.node = n
      · simp [hn]
      · rw [if_neg hn, h.annotated, or_iff_left (Ne.symm hn)]
    · intro n b hb
      rw [annotation?_annotated hlt] at hb
      by_cases hn : a.node = n
      · rw [if_pos hn] at hb
        obtain rfl : a = b := Option.some.inj hb
        exact hn ▸ hextends.choose hchoose
      · rw [if_neg hn] at hb
        exact hextends.choose (h.chosen n b hb)

/-- A node that no tile matches ends the selection. -/
theorem Visited.visit_error (h : Visited g root catalog done s) {node : Node}
    (hnode : g.node? id = some node) (hmatch : catalog.matchesAt g id = false) :
    visit catalog s id = .error (.noCover node.name node.opcode) := by
  have hnone : s.candidates catalog id = .ok [] := by
    have hfilter : (catalog.tiles.filter fun tile => tile.pattern.accepts s.graph id) = [] := by
      rw [List.filter_eq_nil_iff]
      intro tile htile haccepts
      rw [h.graph] at haccepts
      have := Catalog.matchesAt_iff.mpr ⟨tile, htile, haccepts⟩
      rw [hmatch] at this
      cases this
    have hid : id < s.graph.size := by rw [h.graph]; exact Graph.lt_size_of_node? hnode
    rw [candidates_eq hid, hfilter]
    rfl
  rw [visit, choose, hnone, h.graph, Graph.node_eq_ok_iff.mpr hnode]
  rfl

end Step

end Selection
end TileSelect
