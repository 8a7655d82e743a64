import TileSelect.Proofs.TilingOptimality

/-! # More tiles never cost more

A catalog that offers every pattern of another at the same cost has a selection wherever the other has one, and
its prices are no higher.  The two selections may settle on different tiles at every node, so that prices are
compared from the leaves up: at a node the larger catalog could still use the tile that the smaller one
selects, and would pay no more for the inputs of that tile.  Names, resources and the order of tiles do not enter,
so catalogs with the same tiles in different orders have the same prices and fail at the same node. -/
namespace TileSelect

/-- Every pattern of the first catalog is in the second at the same cost. -/
def Catalog.OfferedBy (c d : Catalog) : Prop :=
  ∀ tile ∈ c.tiles, ∃ tile' ∈ d.tiles, tile'.pattern = tile.pattern ∧ tile'.cost = tile.cost

instance (c d : Catalog) : Decidable (c.OfferedBy d) :=
  inferInstanceAs (Decidable (∀ tile ∈ c.tiles, ∃ tile' ∈ d.tiles, _ ∧ _))

namespace Catalog

variable {c d : Catalog}

theorem offeredBy_of_perm (h : c.tiles.Perm d.tiles) : c.OfferedBy d := fun tile htile =>
  ⟨tile, h.mem_iff.mp htile, rfl, rfl⟩

theorem OfferedBy.matchesAt (h : c.OfferedBy d) {g : Graph} {id : NodeId}
    (hmatch : c.matchesAt g id = true) : d.matchesAt g id = true := by
  obtain ⟨tile, htile, haccepts⟩ := matchesAt_iff.mp hmatch
  obtain ⟨tile', htile', hpattern, -⟩ := h tile htile
  exact matchesAt_iff.mpr ⟨tile', htile', hpattern ▸ haccepts⟩

theorem matchesAt_eq_of_perm (h : c.tiles.Perm d.tiles) (g : Graph) :
    c.matchesAt g = d.matchesAt g := by
  funext id
  rw [Bool.eq_iff_iff]
  exact ⟨(offeredBy_of_perm h).matchesAt, (offeredBy_of_perm h.symm).matchesAt⟩

end Catalog

namespace Selection

variable {g : Graph} {root : NodeId} {c d : Catalog} {s s' : Selection}

theorem exists_select_of_offeredBy (h : c.OfferedBy d) (hs : select g root c = .ok s) :
    ∃ s', select g root d = .ok s' := by
  exact exists_select_of_matched (lt_size_of_select hs) fun id hid =>
    h.matchesAt (matchesAt_of_select hs hid)

/-- A tile costs no more where its inputs cost no more. -/
theorem tileCost_le {tile tile' : Tile} (hcost : tile'.cost = tile.cost) {b : Boundary}
    (hinputs : ∀ input ∈ b.inputs, s'.costAt input ≤ s.costAt input) :
    s'.tileCost tile' b ≤ s.tileCost tile b := by
  have hsum : (b.inputs.map s'.costAt).sum ≤ (b.inputs.map s.costAt).sum :=
    List.sum_le_sum hinputs
  rw [tileCost, tileCost, hcost]
  omega

/-- The prices of the larger catalog are no higher, from the leaves up. -/
theorem costAt_le_of_offeredBy (h : c.OfferedBy d) (hs : select g root c = .ok s)
    (hs' : select g root d = .ok s') {n : NodeId} (hn : g.Reaches root n) :
    s'.costAt n ≤ s.costAt n := by
  induction n using Nat.strong_induction_on with
  | _ n ih =>
    obtain ⟨a, ha⟩ := exists_annotation_of_reaches hs hn
    obtain ⟨a', ha'⟩ := exists_annotation_of_reaches hs' hn
    obtain ⟨hmem, haccepts, ⟨b, hb, hcost⟩, -⟩ := (visited_of_select hs).local_choice ha
    -- the tile that the smaller catalog selects, as the larger one offers it
    obtain ⟨tile, htile, hpattern, htileCost⟩ := h a.tile hmem
    have hleast := ((visited_of_select hs').local_choice ha').2.2.2 tile htile
      (hpattern ▸ haccepts) b (hpattern ▸ hb)
    have hinputs : ∀ input ∈ b.inputs, s'.costAt input ≤ s.costAt input := by
      intro input hinput
      have hreaches := hn.trans (Pattern.reaches_of_mem_inputs hb input hinput)
      exact ih input (Pattern.lt_of_mem_boundary hb input hinput) hreaches
    calc s'.costAt n ≤ s'.tileCost tile b := hleast
      _ ≤ s.tileCost a.tile b := tileCost_le htileCost hinputs
      _ = s.costAt n := hcost.symm

theorem exists_cost_le_of_offeredBy (h : c.OfferedBy d) (hs : select g root c = .ok s)
    (hs' : select g root d = .ok s') {n : NodeId} (hn : g.Reaches root n) :
    ∃ a a', s.annotation? n = some a ∧ s'.annotation? n = some a' ∧ a'.cost ≤ a.cost := by
  obtain ⟨a, ha⟩ := exists_annotation_of_reaches hs hn
  obtain ⟨a', ha'⟩ := exists_annotation_of_reaches hs' hn
  have hle := costAt_le_of_offeredBy h hs hs' hn
  rw [costAt_eq ha, costAt_eq ha'] at hle
  exact ⟨a, a', ha, ha', UInt64.le_iff_toNat_le.mpr hle⟩

theorem annotation?_eq_none_of_not_reaches (hs : select g root c = .ok s) {n : NodeId}
    (hn : ¬g.Reaches root n) : s.annotation? n = none := by
  rw [Option.eq_none_iff_forall_ne_some]
  intro a ha
  have hmem := ((visited_of_select hs).annotated n).mp ⟨a, ha⟩
  rw [List.mem_eraseDups, Graph.mem_unfolded (lt_size_of_select hs)] at hmem
  exact hn hmem

/-- Reordered tiles have the same prices. -/
theorem map_cost_eq_of_perm (h : c.tiles.Perm d.tiles) (hs : select g root c = .ok s)
    (hs' : select g root d = .ok s') (n : NodeId) :
    (s.annotation? n).map Annotation.cost = (s'.annotation? n).map Annotation.cost := by
  by_cases hn : g.Reaches root n
  · obtain ⟨a, a', ha, ha', hle⟩ :=
      exists_cost_le_of_offeredBy (Catalog.offeredBy_of_perm h) hs hs' hn
    obtain ⟨b', b, hb', hb, hge⟩ :=
      exists_cost_le_of_offeredBy (Catalog.offeredBy_of_perm h.symm) hs' hs hn
    obtain rfl := Option.some.inj (ha.symm.trans hb)
    obtain rfl := Option.some.inj (ha'.symm.trans hb')
    rw [ha, ha', Option.map_some, Option.map_some, UInt64.le_antisymm hge hle]
  · rw [annotation?_eq_none_of_not_reaches hs hn, annotation?_eq_none_of_not_reaches hs' hn]

/-- If every pattern of `c` is in `d` at the same cost and `c` has a selection, then so has `d`, and no node
under the root costs more.  If `d` has the tiles of `c` in another order, both have selections with the same
costs everywhere, or both fail at the same node. -/
theorem select_monotone (hroot : root < g.size) (c d : Catalog) :
    (c.OfferedBy d → ∀ s, select g root c = .ok s → ∃ s', select g root d = .ok s' ∧
      ∀ n, g.Reaches root n →
        ∃ a a', s.annotation? n = some a ∧ s'.annotation? n = some a' ∧ a'.cost ≤ a.cost) ∧
    (c.tiles.Perm d.tiles →
      (∃ s s', select g root c = .ok s ∧ select g root d = .ok s' ∧
        ∀ n, (s.annotation? n).map Annotation.cost = (s'.annotation? n).map Annotation.cost) ∨
      ∃ name op, select g root c = .error (.noCover name op) ∧
        select g root d = .error (.noCover name op)) := by
  constructor
  · intro h s hs
    obtain ⟨s', hs'⟩ := exists_select_of_offeredBy h hs
    exact ⟨s', hs', fun n hn => exists_cost_le_of_offeredBy h hs hs' hn⟩
  · intro h
    rcases select_cases hroot c with ⟨-, s, hs, -⟩ | ⟨id, node, hfind, hnode, herror⟩
    · obtain ⟨s', hs'⟩ := exists_select_of_offeredBy (Catalog.offeredBy_of_perm h) hs
      exact Or.inl ⟨s, s', hs, hs', map_cost_eq_of_perm h hs hs'⟩
    · refine Or.inr ⟨node.name, node.opcode, herror, ?_⟩
      rw [Catalog.matchesAt_eq_of_perm h] at hfind
      rcases select_cases hroot d with ⟨hall, -⟩ | ⟨id', node', hfind', hnode', herror'⟩
      · have hmatched := hall id (List.mem_of_find?_eq_some hfind)
        have hunmatched := List.find?_some hfind
        simp [hmatched] at hunmatched
      · obtain rfl := Option.some.inj (hfind.symm.trans hfind')
        obtain rfl := Option.some.inj (hnode.symm.trans hnode')
        exact herror'

/-- A sum of products costs 5 without the fused tile and 2 with it; reversing the tiles changes no cost. -/
theorem select_monotone_productTwice :
    ∃ s s' s'' a a', select productTwice 3 ⟨Catalog.standard.tiles.tail⟩ = .ok s ∧
      select productTwice 3 Catalog.standard = .ok s' ∧
      select productTwice 3 ⟨Catalog.standard.tiles.reverse⟩ = .ok s'' ∧
      s.annotation? 3 = some a ∧ s'.annotation? 3 = some a' ∧ a'.cost ≤ a.cost ∧
      a.cost = 5 ∧ a'.cost = 2 ∧ (s''.annotation? 3).map Annotation.cost = some a'.cost := by
  have hroot : 3 < productTwice.size := by decide
  have hunfused : (select productTwice 3 ⟨Catalog.standard.tiles.tail⟩).map
      (fun s => (s.annotation? 3).map Annotation.cost) = .ok (some 5) := by decide +kernel
  have hfused : (select productTwice 3 Catalog.standard).map
      (fun s => (s.annotation? 3).map Annotation.cost) = .ok (some 2) := by decide +kernel
  obtain ⟨s, hs, hfive⟩ := Result.map_eq_ok_iff.mp hunfused
  obtain ⟨s', hs', htwo⟩ := Result.map_eq_ok_iff.mp hfused
  obtain ⟨t, ht, hle⟩ :=
    (select_monotone hroot ⟨Catalog.standard.tiles.tail⟩ Catalog.standard).1 (by decide) s hs
  obtain rfl := Except.ok.inj (hs'.symm.trans ht)
  obtain ⟨a, a', ha, ha', hcost⟩ := hle 3 (.refl 3)
  have hreverse : Catalog.standard.tiles.Perm (Catalog.mk Catalog.standard.tiles.reverse).tiles :=
    Catalog.standard.tiles.reverse_perm.symm
  rcases (select_monotone hroot _ _).2 hreverse with ⟨t, s'', ht, hs'', hsame⟩ | ⟨_, _, herror, -⟩
  · obtain rfl := Except.ok.inj (hs'.symm.trans ht)
    rw [ha, Option.map_some] at hfive
    rw [ha', Option.map_some] at htwo
    exact ⟨s, s', s'', a, a', hs, hs', hs'', ha, ha', hcost, Option.some.inj hfive, Option.some.inj htwo,
      by rw [← hsame, ha']; rfl⟩
  · cases hs'.symm.trans herror

end Selection
end TileSelect
