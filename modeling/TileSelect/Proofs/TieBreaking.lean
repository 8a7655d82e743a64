import Mathlib.Tactic.IntervalCases
import TileSelect.Proofs.SelectionSharing
import TileSelect.Proofs.TilingOptimality

/-! # The first of the cheapest tiles

At a node every place of the catalog whose tile matches comes to a total: the cost of the tile and the costs
recorded for its inputs, cut off at the largest cost.  The totals are stated with the annotations of the finished
selection, although the choice was made while annotations were still being added; those of the inputs were there
and have not changed since.  The annotation of the node has the least total, and its tile stands at the first place
with it. -/
namespace TileSelect.Selection

/-- The tile at a place matches at a node, and this is what it comes to there; an input that stands twice at the
boundary counts twice. -/
def Totals (s : Selection) (catalog : Catalog) (id : NodeId) (place total : ℕ) : Prop :=
  ∃ (tile : Tile) (b : Boundary) (found : List Annotation), catalog.tiles[place]? = some tile ∧
    tile.pattern.accepts s.graph id = true ∧ tile.pattern.boundary s.graph id = .ok b ∧
    b.inputs.map s.annotation? = found.map some ∧
    total = min (2 ^ 64 - 1) (tile.cost.toNat + (found.map fun a => a.cost.toNat).sum)

section Totals

variable {s : Selection} {catalog : Catalog} {id : NodeId} {place total : ℕ}

/-- A total is the cost of the candidate that its tile makes. -/
theorem totals_iff_candidate : s.Totals catalog id place total ↔
    ∃ tile a, catalog.tiles[place]? = some tile ∧ tile.pattern.accepts s.graph id = true ∧
      s.candidate id tile = .ok a ∧ total = a.cost.toNat := by
  have hcost : ∀ (tile : Tile) (found : List Annotation),
      (Cost.add tile.cost (Cost.total (found.map Annotation.cost))).toNat =
        min (2 ^ 64 - 1) (tile.cost.toNat + (found.map fun a => a.cost.toNat).sum) := by
    intro tile found
    rw [Cost.toNat_add_total, List.map_map, Nat.min_comm]
    rfl
  constructor
  · rintro ⟨tile, b, found, htile, haccepts, hb, hfound, rfl⟩
    exact ⟨tile, _, htile, haccepts, candidate_eq_ok_iff.mpr ⟨b, found, hb, hfound, rfl⟩,
      (hcost tile found).symm⟩
  · rintro ⟨tile, a, htile, haccepts, hcandidate, rfl⟩
    obtain ⟨b, found, hb, hfound, rfl⟩ := candidate_eq_ok_iff.mp hcandidate
    exact ⟨tile, b, found, htile, haccepts, hb, hfound, hcost tile found⟩

theorem Totals.unique {total' : ℕ} (h : s.Totals catalog id place total)
    (h' : s.Totals catalog id place total') : total = total' := by
  obtain ⟨tile, a, htile, -, ha, rfl⟩ := totals_iff_candidate.mp h
  obtain ⟨tile', a', htile', -, ha', rfl⟩ := totals_iff_candidate.mp h'
  obtain rfl := Option.some.inj (htile.symm.trans htile')
  obtain rfl := Except.ok.inj (ha.symm.trans ha')
  rfl

/-- Every place whose tile matches an annotated node has a total there. -/
theorem Visited.exists_totals {g : Graph} {root : NodeId} {done : List NodeId}
    (h : Visited g root catalog done s) {a : Annotation} (ha : s.annotation? id = some a) {tile : Tile}
    (htile : catalog.tiles[place]? = some tile) (haccepts : tile.pattern.accepts s.graph id = true) :
    ∃ total, s.Totals catalog id place total := by
  obtain ⟨-, found, hfound, -⟩ := choose_eq_ok_iff.mp (h.chosen id a ha)
  obtain ⟨c, -, hc⟩ :=
    exists_candidate_of_candidates_eq_ok hfound (List.mem_of_getElem? htile) haccepts
  exact ⟨c.cost.toNat, totals_iff_candidate.mpr ⟨tile, c, htile, haccepts, hc, rfl⟩⟩

/-- Where a selection settles on a place, its annotation is the total of that place, the least of all, and no
earlier place has it. -/
theorem SettlesOn.isLeast (h : s.SettlesOn catalog id place) :
    ∃ a, s.annotation? id = some a ∧ catalog.tiles[place]? = some a.tile ∧ a.loc = a.tile.loc ∧
      IsLeast {total | ∃ place, s.Totals catalog id place total} a.cost.toNat ∧
      IsLeast {place | s.Totals catalog id place a.cost.toNat} place := by
  obtain ⟨tile, a, htile, haccepts, hcandidate, ha, hleast⟩ := h
  have hplace : s.Totals catalog id place a.cost.toNat :=
    totals_iff_candidate.mpr ⟨tile, a, htile, haccepts, hcandidate, rfl⟩
  obtain ⟨b, found, -, -, hmade⟩ := candidate_eq_ok_iff.mp hcandidate
  refine ⟨a, ha, ?_, ?_, ⟨⟨place, hplace⟩, ?_⟩, hplace, ?_⟩
  · rw [hmade]
    exact htile
  · rw [hmade]
  · rintro total ⟨place', htotal⟩
    obtain ⟨tile', c, htile', haccepts', hc, rfl⟩ := totals_iff_candidate.mp htotal
    exact UInt64.le_iff_toNat_le.mp (hleast place' tile' c htile' haccepts' hc).1
  · -- an earlier place would have a higher total
    intro place' htotal
    obtain ⟨tile', c, htile', haccepts', hc, hcost⟩ := totals_iff_candidate.mp htotal
    by_contra hbefore
    have hlt := (hleast place' tile' c htile' haccepts' hc).2 (Nat.lt_of_not_le hbefore)
    have := UInt64.lt_iff_toNat_lt.mp hlt
    omega

theorem Totals.cost_le (h : s.Totals catalog id place total) {tile : Tile} {b : Boundary}
    (htile : catalog.tiles[place]? = some tile) (hb : tile.pattern.boundary s.graph id = .ok b)
    {input : NodeId} (hinput : input ∈ b.inputs) :
    ∃ c, s.annotation? input = some c ∧ c.cost.toNat ≤ total := by
  obtain ⟨tile', b', found, htile', -, hb', hfound, rfl⟩ := h
  obtain rfl := Option.some.inj (htile.symm.trans htile')
  obtain rfl := Except.ok.inj (hb.symm.trans hb')
  have hmem : s.annotation? input ∈ found.map some := hfound ▸ List.mem_map_of_mem hinput
  obtain ⟨c, hc, hannotation⟩ := List.mem_map.mp hmem
  have hsum : c.cost.toNat ≤ (found.map fun a => a.cost.toNat).sum :=
    List.le_sum_of_mem (List.mem_map_of_mem hc)
  -- cutting the total off does not bring it below a cost
  have hbound := Cost.toNat_le_bound c.cost
  refine ⟨c, hannotation.symm, Nat.le_min.mpr ⟨hbound, ?_⟩⟩
  omega

end Totals

/-- In a selection, every place of the catalog whose tile matches an annotated node has one total there.  The node
is annotated with the least of these totals, and with the tile and the location of the first place that has it.  So
no input of that tile costs more than the node, and if all totals are cut off the first tile that matches is
selected. -/
theorem annotation_first_cheapest {g : Graph} {root : NodeId} {catalog : Catalog} {s : Selection}
    (h : select g root catalog = .ok s) {n : NodeId} {a : Annotation} (ha : s.annotation? n = some a) :
    (∀ place tile, catalog.tiles[place]? = some tile → tile.pattern.accepts g n = true →
      ∃! total, s.Totals catalog n place total) ∧
    ∃ place b, catalog.tiles[place]? = some a.tile ∧ a.loc = a.tile.loc ∧
      a.tile.pattern.boundary g n = .ok b ∧
      IsLeast {total | ∃ place, s.Totals catalog n place total} a.cost.toNat ∧
      IsLeast {place | s.Totals catalog n place a.cost.toNat} place ∧
      (∀ input ∈ b.inputs, ∃ c, s.annotation? input = some c ∧ c.cost ≤ a.cost) ∧
      ((∀ place total, s.Totals catalog n place total → total = 2 ^ 64 - 1) →
        IsLeast {place | ∃ tile, catalog.tiles[place]? = some tile ∧
          tile.pattern.accepts g n = true} place) := by
  have hvisited := visited_of_select h
  obtain rfl := hvisited.graph
  have htotals : ∀ place tile, catalog.tiles[place]? = some tile →
      tile.pattern.accepts s.graph n = true → ∃ total, s.Totals catalog n place total :=
    fun place tile htile haccepts => hvisited.exists_totals ha htile haccepts
  refine ⟨fun place tile htile haccepts => ?_, ?_⟩
  · obtain ⟨total, htotal⟩ := htotals place tile htile haccepts
    exact ⟨total, htotal, fun total' htotal' => htotal'.unique htotal⟩
  · obtain ⟨place, hplace⟩ := hvisited.exists_settlesOn ((hvisited.annotated n).mp ⟨a, ha⟩)
    obtain ⟨a', ha', htile, hloc, hleast, hfirst⟩ := hplace.isLeast
    obtain rfl := Option.some.inj (ha.symm.trans ha')
    have haccepts := (hvisited.tile_accepts ha).2
    obtain ⟨b, hb⟩ := Pattern.exists_boundary haccepts
    refine ⟨place, b, htile, hloc, hb, hleast, hfirst, ?_, fun hall => ⟨⟨a.tile, htile, haccepts⟩, ?_⟩⟩
    · intro input hinput
      obtain ⟨c, hc, hle⟩ := hfirst.1.cost_le htile hb hinput
      exact ⟨c, hc, UInt64.le_iff_toNat_le.mpr hle⟩
    · rintro place' ⟨tile', htile', haccepts'⟩
      obtain ⟨total, htotal⟩ := htotals place' tile' htile' haccepts'
      have hsame : total = a.cost.toNat := (hall place' total htotal).trans (hall place _ hfirst.1).symm
      exact hfirst.2 (hsame ▸ htotal)

/-- A catalog with two tiles for sums, of which the second costs less by itself. -/
def dearSums : Catalog where
  tiles :=
    [⟨"ref", .leaf .ref, .resource .generic, 0⟩, ⟨"mul", .leaf .mul, .resource .dsp, 1⟩,
     ⟨"add.first", .leaf .add, .resource .lut, Cost.largest⟩,
     ⟨"add.second", .leaf .add, .resource .dsp, Cost.largest - 1⟩]

/-- With its two inputs the second tile comes to as much as the first once totals are cut off, and the first is
selected. -/
theorem annotation_first_cheapest_dearSums :
    ∃ s a, select productTwice 3 dearSums = .ok s ∧ s.annotation? 3 = some a ∧
      a.tile.name = "add.first" ∧
      IsLeast {total | ∃ place, s.Totals dearSums 3 place total} (2 ^ 64 - 1) ∧
      IsLeast {place | s.Totals dearSums 3 place (2 ^ 64 - 1)} 2 := by
  have hrun : (select productTwice 3 dearSums).map (fun s => s.annotation? 3) =
      .ok (some ⟨3, ⟨"add.first", .leaf .add, .resource .lut, Cost.largest⟩, .resource .lut,
        Cost.largest⟩) := by
    decide +kernel
  obtain ⟨s, hs, ha⟩ := Result.map_eq_ok_iff.mp hrun
  obtain ⟨-, place, b, htile, -, -, hleast, hfirst, -, -⟩ := annotation_first_cheapest hs ha
  obtain rfl : place = 2 := by
    have hplace : place < 4 := (List.getElem?_eq_some_iff.mp htile).1
    interval_cases place <;> simp [dearSums] at htile ⊢
  exact ⟨s, _, hs, ha, rfl, hleast, hfirst⟩

end TileSelect.Selection
