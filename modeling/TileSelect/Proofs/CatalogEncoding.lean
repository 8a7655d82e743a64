import TileSelect.Catalog.Entry
import TileSelect.Proofs.PatternSyntax

/-! # Catalogs written as entries and read back

A tile is read back from its entry exactly if it has a name, runs on a resource and its pattern has only opcodes
with names.  Any other tile gives a problem, never another tile, so a catalog is read back as it was or refused
with one problem for each tile that cannot be read back. -/
namespace TileSelect

/-- Can the tile be read back from its entry? -/
structure Tile.Writable (tile : Tile) : Prop where
  name : tile.name ≠ ""
  resource : ∃ r, tile.loc = .resource r
  opcodes : ∀ op ∈ tile.pattern.shape.opcodes, op.isNamed = true

instance (loc : Loc) : Decidable (∃ r, loc = .resource r) :=
  match loc with
  | .resource r => .isTrue ⟨r, rfl⟩
  | .reserved _ => .isFalse nofun

instance : DecidablePred Tile.Writable := fun tile =>
  decidable_of_iff (tile.name ≠ "" ∧ (∃ r, tile.loc = .resource r) ∧
      ∀ op ∈ tile.pattern.shape.opcodes, op.isNamed = true)
    ⟨fun ⟨name, resource, opcodes⟩ => ⟨name, resource, opcodes⟩,
      fun ⟨name, resource, opcodes⟩ => ⟨name, resource, opcodes⟩⟩

theorem Loc.parse?_name_iff {loc : Loc} {r : Resource} :
    Resource.parse? loc.name = some r ↔ loc = .resource r := by
  cases loc with
  | resource r' => simp [Loc.name, Resource.parse?_name]
  | reserved extra =>
    have hne : ∀ name : String, name.toList.take 3 ≠ "loc".toList →
        (Loc.reserved extra).name ≠ name := by
      rintro _ h rfl
      exact h (by simp [Loc.name])
    simp [Resource.parse?, hne "gen" (by decide), hne "generic" (by decide), hne "lut" (by decide),
      hne "dsp" (by decide)]

namespace Catalog

/-- An entry is a tile exactly if its three texts are read. -/
theorem tile_eq_ok_iff {entry : Entry} {tile : Tile} :
    entry.tile = .ok tile ↔ entry.name ≠ "" ∧ ∃ r p, Resource.parse? entry.loc = some r ∧
      entry.readPattern = .ok p ∧ tile = ⟨entry.name, p, .resource r, entry.cost.getD r.unitCost⟩ := by
  rw [Entry.tile]
  by_cases hname : entry.name = ""
  · simp [hname]
  rw [if_neg (by simpa using hname)]
  cases hloc : Resource.parse? entry.loc with
  | none => simp
  | some r =>
    simp only [Result.bind_eq_ok_iff, Except.ok.injEq]
    constructor
    · rintro ⟨p, hp, rfl⟩
      exact ⟨hname, r, p, rfl, hp, rfl⟩
    · rintro ⟨-, r, p, hr, hp, rfl⟩
      obtain rfl := Option.some.inj hr
      exact ⟨p, hp, rfl⟩

theorem readPattern_ofTile {tile : Tile} {p : Pattern} :
    (Entry.ofTile tile).readPattern = .ok p ↔ p = tile.pattern ∧ tile.pattern.shape.Named := by
  obtain ⟨found, hread, hfound⟩ := (SExpr.writes_pattern tile.pattern).readAll
  obtain ⟨term, rfl, hterm⟩ := List.map_eq_singleton_iff.mp hfound
  have hparse : SExpr.parseFile ⟨tile.name, tile.pattern.render.toList⟩ = .ok [term] := by
    rw [SExpr.parseFile, Pattern.render, String.toList_ofList, hread]
    rfl
  simp only [Entry.readPattern, Entry.ofTile, hparse]
  rw [Result.mapError_eq_ok_iff, Pattern.read_term_eq_ok_iff hterm]

/-- The entry of a tile is the tile or none. -/
theorem tile_ofTile_eq_ok_iff {tile tile' : Tile} :
    (Entry.ofTile tile).tile = .ok tile' ↔ tile' = tile ∧ tile.Writable := by
  rw [tile_eq_ok_iff]
  simp only [readPattern_ofTile]
  constructor
  · rintro ⟨hname, r, p, hr, ⟨rfl, hnamed⟩, rfl⟩
    have hloc : tile.loc = .resource r := Loc.parse?_name_iff.mp hr
    refine ⟨?_, hname, ⟨r, hloc⟩, hnamed⟩
    rw [← hloc]
    rfl
  · rintro ⟨rfl, hname, ⟨r, hr⟩, hnamed⟩
    refine ⟨hname, r, tile'.pattern, Loc.parse?_name_iff.mpr hr, ⟨rfl, hnamed⟩, ?_⟩
    rw [← hr]
    rfl

section

variable {ε α : Type}

theorem partitionResults_ok (a : α) (results : List (Except ε α)) :
    partitionResults (.ok a :: results) =
      (a :: (partitionResults results).1, (partitionResults results).2) := rfl

theorem partitionResults_error (e : ε) (results : List (Except ε α)) :
    partitionResults (.error e :: results) =
      ((partitionResults results).1, e :: (partitionResults results).2) := rfl

end

/-- The results of reading the entries of tiles, the first of them at the given position. -/
def readBack (first : Nat) (tiles : List Tile) : List (Except EntryProblem Tile) :=
  ((tiles.map Entry.ofTile).zipIdx first).map fun entry => readEntry entry.1 entry.2

theorem readEntry_of_writable {tile : Tile} (h : tile.Writable) (index : Nat) :
    readEntry (Entry.ofTile tile) index = .ok tile := by
  rw [readEntry, tile_ofTile_eq_ok_iff.mpr ⟨rfl, h⟩]
  rfl

theorem readEntry_of_not_writable {tile : Tile} (h : ¬ tile.Writable) (index : Nat) :
    ∃ error, readEntry (Entry.ofTile tile) index = .error ⟨index, tile.name, error⟩ := by
  cases hread : (Entry.ofTile tile).tile with
  | ok tile' => exact (h (tile_ofTile_eq_ok_iff.mp hread).2).elim
  | error error =>
    refine ⟨error, ?_⟩
    rw [readEntry, hread]
    rfl

/-- Tiles that can be read back are, in order, and each of the others gives a problem where it stands. -/
theorem partitionResults_readBack (first : Nat) (tiles : List Tile) :
    (partitionResults (readBack first tiles)).1 = tiles.filter (·.Writable) ∧
      (partitionResults (readBack first tiles)).2.map (fun problem => (problem.index, problem.name)) =
        ((tiles.zipIdx first).filter fun entry => ¬ entry.1.Writable).map
          fun entry => (entry.2, entry.1.name) := by
  induction tiles generalizing first with
  | nil => exact ⟨rfl, rfl⟩
  | cons tile tiles ih =>
    obtain ⟨htiles, hproblems⟩ := ih (first + 1)
    have hcons : readBack first (tile :: tiles) =
        readEntry (Entry.ofTile tile) first :: readBack (first + 1) tiles := rfl
    rw [hcons, List.zipIdx_cons]
    by_cases hwritable : tile.Writable
    · rw [readEntry_of_writable hwritable, partitionResults_ok]
      simp [hwritable, htiles, hproblems]
    · obtain ⟨error, hread⟩ := readEntry_of_not_writable hwritable first
      rw [hread, partitionResults_error]
      simp [hwritable, htiles, hproblems]

theorem problems_eq_nil_iff (tiles : List Tile) :
    (partitionResults (readBack 0 tiles)).2 = [] ↔ ∀ tile ∈ tiles, tile.Writable := by
  have hproblems := (partitionResults_readBack 0 tiles).2
  rw [← List.map_eq_nil_iff, hproblems, List.map_eq_nil_iff, List.filter_eq_nil_iff]
  have hmem := List.forall_mem_map (f := Prod.fst) (l := tiles.zipIdx) (P := Tile.Writable)
  rw [List.zipIdx_map_fst] at hmem
  rw [hmem]
  simp

/-- Writing a catalog as entries and reading them gives the catalog exactly if every tile can be read back.
Otherwise there is no catalog, and the problems are those of the other tiles, one for each in their order. -/
theorem ofEntries_entries (catalog : Catalog) :
    (ofEntries catalog.entries = .ok catalog ↔ ∀ tile ∈ catalog.tiles, tile.Writable) ∧
    ((∃ tile ∈ catalog.tiles, ¬ tile.Writable) → ∃ problems, ofEntries catalog.entries = .error problems ∧
      problems.map (fun problem => (problem.index, problem.name)) =
        (catalog.tiles.zipIdx.filter fun entry => ¬ entry.1.Writable).map
          fun entry => (entry.2, entry.1.name)) := by
  obtain ⟨htiles, hproblems⟩ := partitionResults_readBack 0 catalog.tiles
  have hread : ofEntries catalog.entries =
      if (partitionResults (readBack 0 catalog.tiles)).2.isEmpty then
        .ok ⟨(partitionResults (readBack 0 catalog.tiles)).1⟩
      else .error (partitionResults (readBack 0 catalog.tiles)).2 := rfl
  simp only [List.isEmpty_iff, problems_eq_nil_iff] at hread
  constructor
  · constructor
    · intro h
      by_contra hnot
      rw [hread, if_neg hnot] at h
      cases h
    · intro h
      have hall : catalog.tiles.filter (·.Writable) = catalog.tiles :=
        List.filter_eq_self.mpr fun tile htile => decide_eq_true (h tile htile)
      rw [hread, if_pos h, htiles, hall]
  · rintro ⟨tile, htile, hnot⟩
    refine ⟨_, ?_, hproblems⟩
    rw [hread, if_neg fun h => hnot (h tile htile)]

/-- A tile of each of the two kinds that a pattern can be written in, and one for each way to go wrong. -/
def unreadableTiles : Catalog where
  tiles :=
    [⟨"madd", ⟨.add, .node .mul .free .free, .free⟩, .resource .dsp, 1⟩,
     ⟨"", .leaf .add, .resource .lut, 2⟩,
     ⟨"sub", .leaf .sub, .reserved 0, 2⟩,
     ⟨"mul", ⟨.mul, .node (.reserved 2) .free .free, .free⟩, .resource .lut, 2⟩]

theorem ofEntries_entries_unreadableTiles :
    ofEntries standard.entries = .ok standard ∧ ∃ problems,
      ofEntries unreadableTiles.entries = .error problems ∧
        problems.map (fun problem => (problem.index, problem.name)) = [(1, ""), (2, "sub"), (3, "mul")] := by
  constructor
  · exact (ofEntries_entries standard).1.mpr (by decide)
  · exact (ofEntries_entries unreadableTiles).2 (by decide)

end Catalog
end TileSelect
