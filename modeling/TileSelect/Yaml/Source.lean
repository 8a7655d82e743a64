import TileSelect.Text.Encoding
import TileSelect.Yaml.Character

/-! # Windows of a byte text

A YAML text is loaded in windows of at most `windowSize` bytes, the byte order mark counted with the first; a
character that a window would cut apart goes into the next one.  A window with a byte that is no part of a character,
or with a character that may not stand in a document, cannot be read, and nothing after it can be. -/
namespace TileSelect.Yaml

/-- The number of bytes that are loaded at once. -/
def windowSize : Nat := 512

/-- The characters of some bytes and how many bytes they take, up to a character that is cut off. -/
def window? (encoding : Text.Encoding) : List UInt8 → Option (List Char × Nat)
  | [] => some ([], 0)
  | lead :: rest =>
    match encoding.front lead rest with
    | .char c more =>
      if isAllowed c then
        (window? encoding (rest.drop more)).map fun found => (c :: found.1, found.2 + more + 1)
      else none
    | .cut => some ([], 0)
    | .invalid => none
termination_by bytes => bytes.length
decreasing_by
  simp only [List.length_drop, List.length_cons]
  omega

/-- The windows of a text, the first of some size, up to one that cannot be read. -/
def windows (encoding : Text.Encoding) (size : Nat) : List UInt8 → List (Option (List Char))
  | [] => []
  | lead :: rest =>
    match window? encoding ((lead :: rest).take size) with
    | some (chars, used + 1) => some chars :: windows encoding windowSize (rest.drop used)
    | _ => [none]
termination_by bytes => bytes.length
decreasing_by
  simp only [List.length_drop, List.length_cons]
  omega

/-- A text that is loaded window by window. -/
structure Source where
  /-- The characters that can be read. -/
  chars : List Char
  /-- How many of them each window has. -/
  windows : List Nat
  /-- Does the text end after them?  If not, it cannot be read from there on. -/
  complete : Bool

def Source.ofBytes (bytes : List UInt8) : Source :=
  let (encoding, mark) := Text.Encoding.ofMark bytes
  let loads := Yaml.windows encoding (windowSize - mark) (bytes.drop mark)
  let readable := loads.filterMap id
  { chars := readable.flatten
    windows := readable.map List.length
    complete := loads.all Option.isSome }

end TileSelect.Yaml
