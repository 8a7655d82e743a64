import TileSelect.Yaml.Meaning

/-! # Fields of mappings

The fields of a mapping by their keys, in the order in which they are read.  The key `<<` takes in the fields of
another mapping or of several, after the mapping's own.  Something of the wrong kind makes the whole reading wrong but
does not stop it.  It is stopped by something other than mappings after `<<`; and a mapping that takes in others keeps
a table of the keys it has, in which a key that is no scalar breaks it off. -/
namespace TileSelect.Yaml

inductive Stop where
  /-- Something stands where only mappings may. -/
  | malformed
  /-- A key that is no scalar was looked up in a table of keys. -/
  | compoundKey
  deriving DecidableEq

/-- What is met when a mapping is read. -/
inductive Finding where
  | field (key : String) (value : Yaml)
  /-- Something of the wrong kind. -/
  | wrong
  | stop (stop : Stop)

/-- What tells keys apart: the text of a scalar, and for other nodes only what they are. -/
inductive KeyShape where
  | scalar (text : String)
  | sequence
  | mapping
  deriving DecidableEq

def keyShape : Yaml → KeyShape
  | .scalar _ text => .scalar text
  | .sequence _ => .sequence
  | .mapping _ => .mapping

/-- Are there two keys that cannot be told apart? -/
def repeatsKey (entries : List (Yaml × Yaml)) : Bool :=
  decide ¬(entries.map fun entry => keyShape entry.1).Nodup

/-- The key by which a mapping takes in the entries of other mappings. -/
def isMerge : Yaml → Bool
  | .scalar false text => text == "<<"
  | _ => false

def takesIn (entries : List (Yaml × Yaml)) : Bool := entries.any fun entry => isMerge entry.1

/-- A scalar key as it is looked up: by what it means, and by its text where that matters. -/
structure Key where
  meaning : Meaning
  text : String
  deriving DecidableEq

/-- The key that a scalar is, read as a text or for what it means. -/
def Key.ofScalar (asText quoted : Bool) (text : String) : Key :=
  let found := if asText || quoted then Meaning.text else Yaml.meaning text
  match found with
  | .null | .integer _ | .infinite _ => ⟨found, ""⟩
  | .truth => ⟨found, String.ofList (text.toList.map Char.toLower)⟩
  | _ => ⟨found, text⟩

abbrev Table := List Key

/-- Is a key in a table?  What is not a number is never found. -/
def Table.has (table : Table) (key : Key) : Bool := key.meaning != .notANumber && table.contains key

def scalarKeys (entries : List (Yaml × Yaml)) : Table :=
  entries.filterMap fun entry =>
    match entry.1 with
    | .scalar quoted text => some (Key.ofScalar false quoted text)
    | _ => none

/-- Can a node be read as a value, so that it is looked up as a key?  A mapping that repeats a key cannot. -/
def isReadable : Yaml → Bool
  | .mapping entries => !repeatsKey entries
  | _ => true

/-- Are all keys of a mapping texts?  Those of the mappings that it takes in are then read as texts too. -/
def hasTextKeys (entries : List (Yaml × Yaml)) : Bool :=
  entries.all fun entry =>
    match entry.1 with
    | .scalar quoted text => quoted || meaning text == .text
    | _ => false

mutual

/-- Reads a node as a value of any kind.  A mapping that is read for one that takes in others adds its keys to the
table of that one, and `asTexts` tells whether they are read as texts. -/
def visit (table : Option Table) (asTexts : Option Bool) : Yaml → Except Stop (Option Table)
  | .scalar _ _ => .ok table
  | .sequence items => visitItems table items
  | .mapping entries =>
    if repeatsKey entries then .ok table
    else do
      let asTexts := asTexts.getD (hasTextKeys entries)
      let own ← visitEntries table asTexts entries
      let all ← visitTaken (own.or (some (scalarKeys entries))) asTexts entries
      .ok (own.bind fun _ => all)

def visitItems (table : Option Table) : List Yaml → Except Stop (Option Table)
  | [] => .ok table
  | item :: items => do
    let table ← visit table none item
    visitItems table items

/-- Reads entries, those that are taken in apart.  A key that the table has is passed over with its value, and so is
one that is no text where texts are wanted. -/
def visitEntries (table : Option Table) (asTexts : Bool) : List (Yaml × Yaml) → Except Stop (Option Table)
  | [] => .ok table
  | (key, value) :: entries =>
    match key with
    | .scalar quoted text =>
      let found := Key.ofScalar asTexts quoted text
      if isMerge (.scalar quoted text) || (asTexts && isNull (.scalar quoted text)) ||
          table.any (·.has found) then
        visitEntries table asTexts entries
      else do
        let _ ← visit none none value
        visitEntries (table.map (found :: ·)) asTexts entries
    | key =>
      if asTexts then visitEntries table asTexts entries
      else do
        let _ ← visit none none key
        if isReadable key then .error (if table.isSome then .compoundKey else .malformed)
        else visitEntries table asTexts entries

def visitTaken (table : Option Table) (asTexts : Bool) : List (Yaml × Yaml) → Except Stop (Option Table)
  | [] => .ok table
  | (key, value) :: entries =>
    if isMerge key then
      match value with
      | .mapping entries => visit table (some asTexts) (.mapping entries)
      | .sequence items => visitMappings table asTexts items
      | _ => .error .malformed
    else visitTaken table asTexts entries

def visitMappings (table : Option Table) (asTexts : Bool) : List Yaml → Except Stop (Option Table)
  | [] => .ok table
  | .mapping entries :: items => do
    let table ← visit table (some asTexts) (.mapping entries)
    visitMappings table asTexts items
  | _ => .error .malformed

end

/-- Makes the table of the keys of a mapping; a key that is no scalar stops that. -/
def makeTable (table : Table) : List (Yaml × Yaml) → Except Stop Table
  | [] => .ok table
  | (.scalar quoted text, _) :: entries => makeTable (Key.ofScalar false quoted text :: table) entries
  | (key, _) :: entries => do
    let found ← visit (some table) none key
    if isReadable key then .error .compoundKey else makeTable (found.getD table) entries

def ownFindings (entries : List (Yaml × Yaml)) : List Finding :=
  entries.filterMap fun entry =>
    match entry.1 with
    | .scalar quoted text =>
      if isMerge (.scalar quoted text) || isNull (.scalar quoted text) then none
      else some (.field text entry.2)
    | _ => some .wrong

def tableFindings (taken : Bool) (entries : List (Yaml × Yaml)) : List Finding :=
  if takesIn entries && !taken then
    match makeTable [] entries with
    | .ok _ => []
    | .error stop => [.stop stop]
  else []

mutual

/-- What is met when a mapping is read, one that another takes in or one on its own.  Only the latter makes a table
of its keys, between its own fields and those that it takes in. -/
def findings (taken : Bool) : Yaml → List Finding
  | .mapping entries =>
    if repeatsKey entries then [.wrong]
    else ownFindings entries ++ tableFindings taken entries ++ takenFindings entries
  | _ => [.wrong]

def takenFindings : List (Yaml × Yaml) → List Finding
  | [] => []
  | (key, value) :: entries =>
    if isMerge key then
      match value with
      | .mapping entries => findings true (.mapping entries)
      | .sequence items => allFindings items
      | _ => [.stop .malformed]
    else takenFindings entries

def allFindings : List Yaml → List Finding
  | [] => []
  | .mapping entries :: items => findings true (.mapping entries) ++ allFindings items
  | _ => [.stop .malformed]

end

structure Progress (α : Type) where
  value : α
  /-- The keys of the fields that were read. -/
  given : List String := []
  /-- Was everything of the right kind? -/
  sound : Bool := true

/-- Takes a finding into account; of several fields with one key the first counts.  `set` gives nothing for a value
of the wrong kind. -/
def Progress.add {α : Type} (set : String → Yaml → α → Except Stop (Option α)) (progress : Progress α) :
    Finding → Except Stop (Progress α)
  | .stop stop => .error stop
  | .wrong => .ok { progress with sound := false }
  | .field key value =>
    if progress.given.contains key then .ok progress
    else
      (set key value progress.value).map fun
        | some read => { progress with value := read, given := key :: progress.given }
        | none => { progress with sound := false, given := key :: progress.given }

/-- Reads the fields of a mapping into a value; nothing if something was of the wrong kind. -/
def readFields {α : Type} (set : String → Yaml → α → Except Stop (Option α)) (start : α) (node : Yaml) :
    Except Stop (Option α) :=
  ((findings false node).foldlM (Progress.add set) ⟨start, [], true⟩).map fun progress =>
    if progress.sound then some progress.value else none

end TileSelect.Yaml
