/-! # Tokens of YAML

The pieces of a document: the start and end of every collection, the marks inside them, and scalars.  A key token
stands before every key that has a colon or a question mark, a value token for every colon. -/
namespace TileSelect.Yaml

inductive Token where
  | documentStart
  | documentEnd
  | streamEnd
  | blockSequenceStart
  | blockMappingStart
  | blockEnd
  | flowSequenceStart
  | flowSequenceEnd
  | flowMappingStart
  | flowMappingEnd
  /-- A dash. -/
  | blockEntry
  /-- A comma. -/
  | flowEntry
  | key
  | value
  | alias
  | scalar (quoted : Bool) (text : String)
  deriving DecidableEq

end TileSelect.Yaml
