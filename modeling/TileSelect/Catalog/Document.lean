import TileSelect.Catalog.Entry
import TileSelect.Json.Reader
import TileSelect.Yaml.Fields
import TileSelect.Yaml.Meaning
import TileSelect.Yaml.Reader
import TileSelect.Yaml.Writer

/-! # Catalogs as structured documents

A JSON or YAML document with a list `tiles` of entries.  In JSON the case of keys does not matter, unknown keys
are passed over, a null leaves a field as it is and a field that is given twice is read twice, a list over the
earlier one.  In YAML keys are exact and may not be repeated, and `<<` takes in the entries of other mappings for
the keys that are not given.  A cost is a number from zero to the largest 64-bit word; a value of the wrong kind
makes the whole document undecodable. -/
namespace TileSelect.Catalog

inductive DocumentError where
  /-- It does not parse, or a value is of the wrong kind. -/
  | undecodable
  /-- Its reading broke off at a key that cannot be looked up. -/
  | brokenOff
  /-- Some of its entries are no tiles. -/
  | rejected (problems : List EntryProblem)

/-- The wording of a document error, a line for each problem. -/
def DocumentError.message : DocumentError → String
  | .undecodable => "invalid catalog document"
  | .brokenOff => ""
  | .rejected problems => "\n".intercalate (problems.map EntryProblem.message)

def ofDecoded (entries : Option (List Entry)) : Except DocumentError Catalog :=
  match entries with
  | none => .error .undecodable
  | some entries => (ofEntries entries).mapError .rejected

/-- A character of a key, with case folded; two letters outside ASCII fold into it. -/
def foldKeyChar (c : Char) : Char :=
  let n := c.toNat
  if 65 ≤ n ∧ n ≤ 90 then Char.ofNat (n + 32)
  else if n = 0x17F then 's'
  else if n = 0x212A then 'k'
  else c

def keyIs (field : String) (key : String) : Bool := key.toList.map foldKeyChar == field.toList

/-- A text field after a value was read into it. -/
def readText (old : String) : Json → Option String
  | .null => some old
  | .string text => some text
  | _ => none

def readCostValue : Json → Option (Option UInt64)
  | .null => some none
  | .number literal =>
    match Text.readDigits Text.maxUnsigned64 literal with
    | .ok n => some (some (UInt64.ofNat n))
    | .error _ => none
  | _ => none

/-- An entry after a member was read into it. -/
def Entry.readMember (entry : Entry) (member : String × Json) : Option Entry :=
  if keyIs "name" member.1 then
    (readText entry.name member.2).map fun text => { entry with name := text }
  else if keyIs "loc" member.1 then
    (readText entry.loc member.2).map fun text => { entry with loc := text }
  else if keyIs "cost" member.1 then
    (readCostValue member.2).map fun cost => { entry with cost := cost }
  else if keyIs "pattern" member.1 then
    (readText entry.pattern member.2).map fun text => { entry with pattern := text }
  else some entry

def Entry.readJson (entry : Entry) : Json → Option Entry
  | .null => some entry
  | .object members => members.foldlM Entry.readMember entry
  | _ => none

/-- Reads items over earlier entries, one over another; entries past the last item are kept behind. -/
def readItems : List Entry → List Json → Option (List Entry × List Entry)
  | old, [] => some ([], old)
  | old, item :: items => do
    let entry ← (old.headD {}).readJson item
    let (entries, behind) ← readItems old.tail items
    some (entry :: entries, behind)

/-- The entries of a document and those kept behind them, after a member was read. -/
def readMember (state : List Entry × List Entry) (member : String × Json) :
    Option (List Entry × List Entry) :=
  if keyIs "tiles" member.1 then
    match member.2 with
    | .null => some ([], [])
    | .array [] => some ([], [])
    | .array items => readItems (state.1 ++ state.2) items
    | _ => none
  else some state

def jsonEntries : Json → Option (List Entry)
  | .null => some []
  | .object members => (members.foldlM readMember ([], [])).map Prod.fst
  | _ => none

def ofJson (cs : List Char) : Except DocumentError Catalog :=
  ofDecoded ((Json.parse? cs).bind jsonEntries)

def Entry.toJson (entry : Entry) : Json :=
  .object ([("name", .string entry.name), ("loc", .string entry.loc)] ++
    entry.cost.toList.map (fun cost => ("cost", .number (toString cost).toList)) ++
    [("pattern", .string entry.pattern)])

/-- A catalog as a JSON text; an empty catalog has no list. -/
def toJson (catalog : Catalog) : String :=
  let tiles := if catalog.tiles.isEmpty then Json.null else .array (catalog.entries.map Entry.toJson)
  (Json.object [("tiles", tiles)]).render

/-- The text of a scalar; one that means nothing has none. -/
def yamlText (node : Yaml) : Option String :=
  if node.isNull then some ""
  else
    match node with
    | .scalar _ text => some text
    | _ => none

def yamlCost (node : Yaml) : Option (Option UInt64) :=
  if node.isNull then some none
  else
    match node with
    | .scalar false text => (Yaml.meaning text).unsigned?.map some
    | _ => none

def Entry.setField (key : String) (value : Yaml) (entry : Entry) : Option Entry :=
  if key = "name" then (yamlText value).map fun text => { entry with name := text }
  else if key = "loc" then (yamlText value).map fun text => { entry with loc := text }
  else if key = "cost" then (yamlCost value).map fun cost => { entry with cost := cost }
  else if key = "pattern" then (yamlText value).map fun text => { entry with pattern := text }
  else some entry

/-- The entries that a list describes; items that mean nothing are passed over. -/
def yamlItems : List Yaml → Except Yaml.Stop (Option (List Entry))
  | [] => .ok (some [])
  | item :: items =>
    if item.isNull then yamlItems items
    else do
      let entry ← Yaml.readFields (fun key value entry => .ok (Entry.setField key value entry)) {} item
      let rest ← yamlItems items
      .ok (entry.bind fun entry => rest.map (entry :: ·))

def setTiles (key : String) (value : Yaml) (entries : List Entry) :
    Except Yaml.Stop (Option (List Entry)) :=
  if key = "tiles" then
    if value.isNull then .ok (some [])
    else
      match value with
      | .sequence items => yamlItems items
      | _ => .ok none
  else .ok (some entries)

def yamlEntries (document : Yaml) : Except Yaml.Stop (Option (List Entry)) :=
  if document.isNull then .ok (some []) else Yaml.readFields setTiles [] document

def ofYaml (bytes : List UInt8) : Except DocumentError Catalog :=
  match Yaml.parse? (.ofBytes bytes) with
  | none => .error .undecodable
  | some document =>
    match yamlEntries document with
    | .ok entries => ofDecoded entries
    | .error .malformed => .error .undecodable
    | .error .compoundKey => .error .brokenOff

/-- An entry as an item of a YAML list. -/
def Entry.toYaml (entry : Entry) : List Char :=
  "    - name: ".toList ++ Yaml.scalarLine entry.name ++
    "      loc: ".toList ++ Yaml.scalarLine entry.loc ++
    entry.cost.toList.flatMap (fun cost => "      cost: ".toList ++ (toString cost).toList ++ ['\n']) ++
    "      pattern: ".toList ++ Yaml.scalarLine entry.pattern

def toYaml (catalog : Catalog) : String :=
  if catalog.tiles.isEmpty then "tiles: []\n"
  else String.ofList ("tiles:\n".toList ++ catalog.entries.flatMap Entry.toYaml)

end TileSelect.Catalog
