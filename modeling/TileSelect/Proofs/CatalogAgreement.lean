import Mathlib.Data.List.Forall2
import TileSelect.Proofs.CatalogEncoding
import TileSelect.Proofs.DecimalNumerals
import TileSelect.Proofs.SExprPrinting

/-! # Declarations and entries agree

The same tiles can be written as declarations, one to a line, or as entries.  Both forms are read as the same
catalog or both are refused, as long as no cost takes more than 32 bits: declarations with such a cost are refused,
entries are not.  Declarations are one text that is read as a whole, while the pattern of an entry is a text of its
own. -/
namespace TileSelect

namespace SExpr

theorem unmarked_unit (term : SExpr Unit) : term.unmarked = term := by
  induction term using term_induction with
  | hsymbol mark text => rfl
  | hlist mark items ih => rw [unmarked_list, List.map_congr_left ih, List.map_id']

variable {μ : Type}

theorem unmarked_eq_symbol {term : SExpr μ} {text : String} (h : term.unmarked = .symbol () text) :
    ∃ mark, term = .symbol mark text := by
  cases term with
  | symbol mark text' =>
    obtain rfl : text' = text := by simpa using h
    exact ⟨mark, rfl⟩
  | list mark items => simp at h

theorem unmarked_eq_list {term : SExpr μ} {items : List (SExpr Unit)}
    (h : term.unmarked = .list () items) : ∃ mark found, term = .list mark found ∧
      found.map unmarked = items := by
  cases term with
  | symbol mark text => simp at h
  | list mark found => exact ⟨mark, found, rfl, by simpa using h⟩

end SExpr

theorem Pattern.read_unmarked {μ : Type} {term : SExpr μ} {p : Pattern} :
    Pattern.read term.unmarked = .ok p ↔ Pattern.read term = .ok p := by
  rw [read_eq_ok_iff, read_eq_ok_iff, readShape_unmarked]

namespace Catalog

/-- A tile that can be written both as a declaration and as an entry. -/
structure Description where
  name : String
  loc : String
  /-- The unit cost of the resource if absent. -/
  cost : Option UInt64
  pattern : SExpr Unit
  isSymbol_name : SExpr.IsSymbol name
  isSymbol_loc : SExpr.IsSymbol loc
  readable : pattern.Readable

namespace Description

def declaration (d : Description) : String :=
  "(tile " ++ d.name ++ " " ++ d.loc ++ d.cost.elim "" (fun cost => " " ++ toString cost) ++ " " ++
    d.pattern.render ++ ")\n"

def entry (d : Description) : Entry := ⟨d.name, d.loc, d.cost, d.pattern.render⟩

def lines (ds : List Description) : List Char := ds.flatMap fun d => d.declaration.toList

def Gives (d : Description) (tile : Tile) : Prop :=
  ∃ r p, Resource.parse? d.loc = some r ∧ Pattern.read d.pattern = .ok p ∧
    tile = ⟨d.name, p, .resource r, d.cost.getD r.unitCost⟩

def term (d : Description) : SExpr Unit :=
  .list () (.symbol () "tile" :: .symbol () d.name :: .symbol () d.loc ::
    (d.cost.toList.map (fun cost => .symbol () (toString cost)) ++ [d.pattern]))

theorem toList_declaration (d : Description) : d.declaration.toList = d.term.chars ++ ['\n'] := by
  cases hcost : d.cost with
  | none => simp [declaration, term, hcost, SExpr.chars, SExpr.itemChars, SExpr.toList_render]
  | some cost => simp [declaration, term, hcost, SExpr.chars, SExpr.itemChars, SExpr.toList_render]

theorem isSymbol_toString (n : Nat) : SExpr.IsSymbol (toString n) := by
  obtain ⟨hne, hplain⟩ := SExpr.toString_plain n
  exact ⟨fun hempty => hne (by rw [hempty]; rfl), hplain⟩

theorem readable_term (d : Description) : d.term.Readable := by
  refine SExpr.readable_list.mpr fun item hitem => ?_
  simp only [List.mem_cons, List.mem_append, List.mem_map, List.not_mem_nil, or_false] at hitem
  rcases hitem with rfl | rfl | rfl | ⟨cost, -, rfl⟩ | rfl
  · exact SExpr.readable_symbol.mpr (by decide)
  · exact SExpr.readable_symbol.mpr d.isSymbol_name
  · exact SExpr.readable_symbol.mpr d.isSymbol_loc
  · exact SExpr.readable_symbol.mpr (isSymbol_toString cost.toNat)
  · exact d.readable

theorem writes_lines (ds : List Description) : SExpr.Writes (lines ds) (ds.map term) := by
  induction ds with
  | nil => exact .nil
  | cons d ds ih =>
    have hterm := SExpr.writes_chars d.readable_term
    rw [SExpr.unmarked_unit] at hterm
    have hnewline : SExpr.endsSymbol '\n' = true := by decide
    have hlines : lines (d :: ds) = d.term.chars ++ '\n' :: lines ds := by
      rw [lines, List.flatMap_cons, toList_declaration, List.append_assoc]
      rfl
    rw [hlines]
    exact hterm.append (ih.blank (by decide)) (SExpr.delimited_cons hnewline _)

end Description

theorem readField_symbol {α μ : Type} {meaning : String → Option α} {cause : DeclarationError}
    {mark : μ} {text : String} {value : α} :
    readField meaning cause (.symbol mark text) = .ok value ↔ meaning text = some value := by
  simp only [readField, SExpr.symbol?, Option.bind_some]
  cases meaning text <;> simp [blame]

theorem cost?_toString {cost found : UInt64} :
    cost? (toString cost) = some found ↔ cost.toNat ≤ Text.maxUnsigned32 ∧ found = cost := by
  have hread : Text.readUnsigned Text.maxUnsigned32 (toString cost) =
      if cost.toNat ≤ Text.maxUnsigned32 then .ok cost.toNat else .error .tooLarge :=
    Text.readUnsigned_toString Text.maxUnsigned32 cost.toNat
  rw [cost?, hread]
  by_cases hlimit : cost.toNat ≤ Text.maxUnsigned32
  · simp [hlimit, Except.toOption, eq_comm]
  · simp [hlimit, Except.toOption]

theorem readPattern_eq_ok_iff {term : SExpr Span} {p : Pattern} :
    readPattern term = .ok p ↔ Pattern.read term.unmarked = .ok p := by
  rw [readPattern, Result.mapError_eq_ok_iff, Pattern.read_unmarked]

theorem readDeclaration_eq_ok_iff {d : Description} {term : SExpr Span} {tile : Tile}
    (h : term.unmarked = d.term) : readDeclaration term = .ok tile ↔
      (∀ cost ∈ d.cost, cost.toNat ≤ Text.maxUnsigned32) ∧ d.Gives tile := by
  obtain ⟨mark, items, rfl, hitems⟩ := SExpr.unmarked_eq_list h
  obtain ⟨head, items, rfl, hhead, hnamed⟩ := List.map_eq_cons_iff.mp hitems
  obtain ⟨name, items, rfl, hname, hplaced⟩ := List.map_eq_cons_iff.mp hnamed
  obtain ⟨loc, items, rfl, hloc, hrest⟩ := List.map_eq_cons_iff.mp hplaced
  obtain ⟨headMark, rfl⟩ := SExpr.unmarked_eq_symbol hhead
  obtain ⟨nameMark, rfl⟩ := SExpr.unmarked_eq_symbol hname
  obtain ⟨locMark, rfl⟩ := SExpr.unmarked_eq_symbol hloc
  cases hcost : d.cost with
  | none =>
    rw [hcost] at hrest
    obtain ⟨pattern, rfl, hpattern⟩ := List.map_eq_singleton_iff.mp hrest
    rw [readDeclaration]
    simp only [readName, readResource, Result.bind_eq_ok_iff, readField_symbol, Option.some.injEq,
      exists_eq_left', readPattern_eq_ok_iff, hpattern, Except.ok.injEq, Description.Gives, hcost,
      Option.getD_none]
    constructor
    · rintro ⟨r, hr, p, hp, rfl⟩
      exact ⟨by simp, r, p, hr, hp, rfl⟩
    · rintro ⟨-, r, p, hr, hp, rfl⟩
      exact ⟨r, hr, p, hp, rfl⟩
  | some cost =>
    rw [hcost] at hrest
    obtain ⟨stated, items, rfl, hstated, hlast⟩ := List.map_eq_cons_iff.mp hrest
    obtain ⟨costMark, rfl⟩ := SExpr.unmarked_eq_symbol hstated
    obtain ⟨pattern, rfl, hpattern⟩ := List.map_eq_singleton_iff.mp hlast
    rw [readDeclaration]
    simp only [readName, readResource, readCost, Result.bind_eq_ok_iff, readField_symbol,
      Option.some.injEq, exists_eq_left', cost?_toString, readPattern_eq_ok_iff, hpattern, Except.ok.injEq,
      Description.Gives, hcost, Option.getD_some]
    constructor
    · rintro ⟨r, hr, _, ⟨hlimit, rfl⟩, p, hp, rfl⟩
      refine ⟨?_, r, p, hr, hp, rfl⟩
      rintro _ ⟨⟩
      exact hlimit
    · rintro ⟨hlimit, r, p, hr, hp, rfl⟩
      exact ⟨r, hr, cost, ⟨hlimit cost rfl, rfl⟩, p, hp, rfl⟩

theorem readPattern_entry (d : Description) {p : Pattern} :
    d.entry.readPattern = .ok p ↔ Pattern.read d.pattern = .ok p := by
  obtain ⟨found, hparse, hfound⟩ := (SExpr.writes_chars d.readable).parseFile d.name
  obtain ⟨term, rfl, hterm⟩ := List.map_eq_singleton_iff.mp hfound
  simp only [Entry.readPattern, Description.entry, SExpr.toList_render, hparse]
  rw [Result.mapError_eq_ok_iff, ← Pattern.read_unmarked, hterm, SExpr.unmarked_unit]

theorem tile_entry_eq_ok_iff {d : Description} {tile : Tile} :
    d.entry.tile = .ok tile ↔ d.Gives tile := by
  rw [tile_eq_ok_iff]
  simp only [readPattern_entry]
  constructor
  · rintro ⟨-, r, p, hr, hp, rfl⟩
    exact ⟨r, p, hr, hp, rfl⟩
  · rintro ⟨r, p, hr, hp, rfl⟩
    exact ⟨d.isSymbol_name.1, r, p, hr, hp, rfl⟩

/-- There are no errors exactly if each step gives its value. -/
theorem partitionResults_map_eq_iff {ε α β : Type} {f : α → Except ε β} {xs : List α} {values : List β} :
    partitionResults (xs.map f) = (values, []) ↔ List.Forall₂ (fun x b => f x = .ok b) xs values := by
  induction xs generalizing values with
  | nil =>
    rw [List.map_nil, List.forall₂_nil_left_iff]
    exact ⟨fun h => (congrArg Prod.fst h).symm, fun h => by rw [h]; rfl⟩
  | cons x xs ih =>
    rw [List.map_cons, List.forall₂_cons_left_iff]
    cases hx : f x with
    | error e =>
      rw [partitionResults_error]
      simp
    | ok b =>
      rw [partitionResults_ok]
      constructor
      · intro h
        obtain ⟨hvalues, herrors⟩ := Prod.mk.inj h
        exact ⟨b, _, rfl, ih.mp (Prod.ext rfl herrors), hvalues.symm⟩
      · rintro ⟨_, rest, ⟨⟩, hrest, rfl⟩
        rw [ih.mpr hrest]

theorem ite_isEmpty_eq_ok_iff {ε ε' : Type} (parts : List Tile × List ε) (error : ε')
    {catalog : Catalog} :
    (if parts.2.isEmpty then Except.ok (Catalog.mk parts.1) else .error error) = .ok catalog ↔
      parts = (catalog.tiles, []) := by
  obtain ⟨tiles, errors⟩ := parts
  cases catalog
  cases errors <;> simp

theorem ofDeclarations_eq_ok_iff {file : File} {terms : List (SExpr Span)} {catalog : Catalog}
    (h : SExpr.parseFile file = .ok terms) : ofDeclarations file = .ok catalog ↔
      List.Forall₂ (fun term tile => readDeclaration term = .ok tile) terms catalog.tiles := by
  rw [← partitionResults_map_eq_iff, ofDeclarations, h]
  exact ite_isEmpty_eq_ok_iff (partitionResults (terms.map readDeclaration)) _

theorem ofEntries_eq_ok_iff {entries : List Entry} {catalog : Catalog} :
    ofEntries entries = .ok catalog ↔
      List.Forall₂ (fun entry tile => entry.tile = .ok tile) entries catalog.tiles := by
  have htile : ∀ (e : Entry × Nat) tile, readEntry e.1 e.2 = .ok tile ↔ e.1.tile = .ok tile :=
    fun e tile => Result.mapError_eq_ok_iff
  have hfst : entries.zipIdx.map Prod.fst = entries := List.zipIdx_map_fst 0 entries
  rw [← hfst, List.forall₂_map_left_iff, hfst]
  simp only [← htile]
  rw [← partitionResults_map_eq_iff]
  exact ite_isEmpty_eq_ok_iff (partitionResults (entries.zipIdx.map fun e => readEntry e.1 e.2)) _

theorem ofEntries_descriptions_eq_ok_iff {ds : List Description} {catalog : Catalog} :
    ofEntries (ds.map Description.entry) = .ok catalog ↔
      List.Forall₂ Description.Gives ds catalog.tiles := by
  rw [ofEntries_eq_ok_iff, List.forall₂_map_left_iff]
  simp only [tile_entry_eq_ok_iff]

/-- Terms that are those of the descriptions up to marks are read as the tiles described. -/
theorem forall₂_readDeclaration_iff {found : List (SExpr Span)} {ds : List Description}
    {tiles : List Tile} (h : found.map SExpr.unmarked = ds.map Description.term) :
    List.Forall₂ (fun term tile => readDeclaration term = .ok tile) found tiles ↔
      List.Forall₂ (fun d tile => (∀ cost ∈ d.cost, cost.toNat ≤ Text.maxUnsigned32) ∧ d.Gives tile)
        ds tiles := by
  induction ds generalizing found tiles with
  | nil =>
    obtain rfl := List.map_eq_nil_iff.mp h
    rw [List.forall₂_nil_left_iff, List.forall₂_nil_left_iff]
  | cons d ds ih =>
    obtain ⟨term, found, rfl, hterm, hfound⟩ := List.map_eq_cons_iff.mp h
    rw [List.forall₂_cons_left_iff, List.forall₂_cons_left_iff]
    simp only [readDeclaration_eq_ok_iff hterm, ih hfound]

theorem ofDeclarations_lines_eq_ok_iff {ds : List Description} {file : String} {catalog : Catalog} :
    ofDeclarations ⟨file, Description.lines ds⟩ = .ok catalog ↔
      (∀ d ∈ ds, ∀ cost ∈ d.cost, cost.toNat ≤ Text.maxUnsigned32) ∧
        List.Forall₂ Description.Gives ds catalog.tiles := by
  obtain ⟨found, hparse, hfound⟩ := (Description.writes_lines ds).parseFile file
  rw [ofDeclarations_eq_ok_iff hparse, forall₂_readDeclaration_iff hfound, List.forall₂_and_left]

/-- The lines that declare tiles and the entries of the same tiles are read as the same catalog, or both as none,
if every cost that is given takes at most 32 bits.  If one takes more, the lines are read as no catalog.  For the
entries the cost is of no matter: they are read as a catalog exactly if every resource is known and every pattern
is one, and each tile then has the cost that it was given. -/
theorem ofDeclarations_iff_ofEntries (file : String) (ds : List Description) :
    ((∀ d ∈ ds, ∀ cost ∈ d.cost, cost.toNat < 2 ^ 32) → ∀ catalog,
      ofDeclarations ⟨file, Text.decode (Text.encode (Description.lines ds))⟩ = .ok catalog ↔
        ofEntries (ds.map Description.entry) = .ok catalog) ∧
    ((∃ d ∈ ds, ∃ cost ∈ d.cost, 2 ^ 32 ≤ cost.toNat) → ∃ errors,
      ofDeclarations ⟨file, Text.decode (Text.encode (Description.lines ds))⟩ = .error errors) ∧
    ∀ catalog, ofEntries (ds.map Description.entry) = .ok catalog ↔
      List.Forall₂ (fun d tile => ∃ r p, Resource.parse? d.loc = some r ∧ Pattern.read d.pattern = .ok p ∧
        tile = ⟨d.name, p, .resource r, d.cost.getD r.unitCost⟩) ds catalog.tiles := by
  rw [Text.decode_encode]
  refine ⟨fun hcosts catalog => ?_, ?_, fun catalog => ofEntries_descriptions_eq_ok_iff⟩
  · have hlimit : ∀ d ∈ ds, ∀ cost ∈ d.cost, cost.toNat ≤ Text.maxUnsigned32 := by
      intro d hd cost hcost
      exact Nat.le_of_lt_succ (hcosts d hd cost hcost)
    rw [ofDeclarations_lines_eq_ok_iff, ofEntries_descriptions_eq_ok_iff, and_iff_right hlimit]
  · rintro ⟨d, hd, cost, hcost, hlarge⟩
    cases hread : ofDeclarations ⟨file, Description.lines ds⟩ with
    | error errors => exact ⟨errors, rfl⟩
    | ok catalog =>
      have hsmall := (ofDeclarations_lines_eq_ok_iff.mp hread).1 d hd cost hcost
      rw [Text.maxUnsigned32] at hsmall
      omega

/-- A product and a sum in one, at a cost that may be left out. -/
def multiplyAdd (cost : Option UInt64) : Description where
  name := "madd"
  loc := "dsp"
  cost := cost
  pattern := .list () [.symbol () "add",
    .list () [.symbol () "mul", .symbol () "_", .symbol () "_"], .symbol () "_"]
  isSymbol_name := by decide
  isSymbol_loc := by decide
  readable := by decide

theorem ofDeclarations_iff_ofEntries_multiplyAdd :
    ofDeclarations ⟨"", Text.decode (Text.encode
        ("(tile madd dsp 5 (add (mul _ _) _))\n" ++ "(tile madd dsp (add (mul _ _) _))\n").toList)⟩ =
      .ok ⟨[⟨"madd", ⟨.add, .node .mul .free .free, .free⟩, .resource .dsp, 5⟩,
        ⟨"madd", ⟨.add, .node .mul .free .free, .free⟩, .resource .dsp, 1⟩]⟩ ∧
    (∃ errors, ofDeclarations ⟨"", Text.decode (Text.encode
        "(tile madd dsp 4294967296 (add (mul _ _) _))\n".toList)⟩ = .error errors) ∧
    ofEntries [⟨"madd", "dsp", some 4294967296, "(add (mul _ _) _)"⟩] =
      .ok ⟨[⟨"madd", ⟨.add, .node .mul .free .free, .free⟩, .resource .dsp, 4294967296⟩]⟩ := by
  have hgives : ∀ cost, (multiplyAdd cost).Gives
      ⟨"madd", ⟨.add, .node .mul .free .free, .free⟩, .resource .dsp, cost.getD 1⟩ :=
    fun cost => ⟨.dsp, _, rfl, rfl, rfl⟩
  have hlines : Description.lines [multiplyAdd (some 5), multiplyAdd none] =
      ("(tile madd dsp 5 (add (mul _ _) _))\n" ++ "(tile madd dsp (add (mul _ _) _))\n").toList := by
    decide +kernel
  have hline : Description.lines [multiplyAdd (some 4294967296)] =
      "(tile madd dsp 4294967296 (add (mul _ _) _))\n".toList := by
    decide +kernel
  obtain ⟨hagree, -, hentries⟩ := ofDeclarations_iff_ofEntries "" [multiplyAdd (some 5), multiplyAdd none]
  obtain ⟨-, hrefused, hlarge⟩ := ofDeclarations_iff_ofEntries "" [multiplyAdd (some 4294967296)]
  rw [hlines] at hagree
  rw [hline] at hrefused
  refine ⟨?_, ?_, ?_⟩
  · exact (hagree (by simp [multiplyAdd]) _).mpr
      ((hentries _).mpr (.cons (hgives _) (.cons (hgives _) .nil)))
  · exact hrefused ⟨_, List.mem_cons_self, _, rfl, by decide⟩
  · exact (hlarge _).mpr (.cons (hgives _) .nil)

end Catalog
end TileSelect
