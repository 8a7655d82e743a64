import TileSelect.Catalog.Declaration

/-! # Catalogs as entries

In structured documents a tile is an entry: a name, a resource, a pattern written as an s-expression and
perhaps a cost.  Every entry is looked at, each that is wrong gives one problem, and there is a catalog only if
none is. -/
namespace TileSelect.Catalog

/-- A tile as it is written in a structured document. -/
structure Entry where
  name : String := ""
  loc : String := ""
  /-- The unit cost of the resource if absent. -/
  cost : Option UInt64 := none
  pattern : String := ""
  deriving DecidableEq

inductive EntryError where
  | missingName
  | unknownResource (loc : String)
  /-- The pattern is no sequence of s-expressions. -/
  | unreadable (error : SyntaxError)
  /-- The pattern is not exactly one s-expression. -/
  | invalidPattern (text : String)
  /-- The s-expression is no pattern. -/
  | pattern (blame : Pattern.Blame Span)

def EntryError.message : EntryError → String
  | .missingName => "missing name"
  | .unknownResource loc => "unknown resource \"" ++ loc ++ "\""
  | .unreadable error => error.brief
  | .invalidPattern text => "invalid pattern \"" ++ text ++ "\""
  | .pattern blame => blame.message

/-- The pattern of an entry; its errors name the entry as their file. -/
def Entry.readPattern (entry : Entry) : Except EntryError Pattern :=
  match SExpr.parseFile ⟨entry.name, entry.pattern.toList⟩ with
  | .error error => .error (.unreadable error)
  | .ok [term] => (Pattern.read term).mapError .pattern
  | .ok _ => .error (.invalidPattern entry.pattern)

def Entry.tile (entry : Entry) : Except EntryError Tile :=
  if entry.name.isEmpty then .error .missingName
  else
    match Resource.parse? entry.loc with
    | none => .error (.unknownResource entry.loc)
    | some r => do
      let pattern ← entry.readPattern
      .ok ⟨entry.name, pattern, .resource r, entry.cost.getD r.unitCost⟩

/-- An entry that is no tile, by its position. -/
structure EntryProblem where
  index : Nat
  name : String
  error : EntryError

def EntryProblem.message (problem : EntryProblem) : String :=
  "tile #" ++ toString problem.index ++ " (" ++ problem.name ++ "): " ++ problem.error.message

def readEntry (entry : Entry) (index : Nat) : Except EntryProblem Tile :=
  entry.tile.mapError fun error => ⟨index, entry.name, error⟩

/-- The catalog that entries describe, or what is wrong with them. -/
def ofEntries (entries : List Entry) : Except (List EntryProblem) Catalog :=
  let (tiles, problems) := partitionResults (entries.zipIdx.map fun e => readEntry e.1 e.2)
  if problems.isEmpty then .ok ⟨tiles⟩ else .error problems

def Entry.ofTile (tile : Tile) : Entry :=
  ⟨tile.name, tile.loc.name, some tile.cost, tile.pattern.render⟩

def entries (catalog : Catalog) : List Entry := catalog.tiles.map Entry.ofTile

end TileSelect.Catalog
