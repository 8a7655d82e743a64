import TileSelect.Text.Quoted
import TileSelect.Yaml.Character
import TileSelect.Yaml.Meaning

/-! # Writing scalars of YAML

A text is written plain if it means itself and can stand plain; between single quotes if it means itself and only
its form is in the way; as a literal block if it has newlines; and between double quotes if nothing else will do.
Lines of a scalar after the first are indented. -/
namespace TileSelect.Yaml

/-- The plain scalars that some readers take for truth values. -/
def truthTexts : List String :=
  ["y", "Y", "yes", "Yes", "YES", "on", "On", "ON", "n", "N", "no", "No", "NO", "off", "Off", "OFF"]

/-- Does a plain scalar mean its own text, to every reader? -/
def meansItself (text : String) : Bool :=
  meaning text == .text && !isSixty text.toList && !truthTexts.contains text

def isWritable (c : Char) : Bool :=
  let n := c.toNat
  n == 10 || (0x20 ≤ n && n ≤ 0x7E) || (0xA0 ≤ n && n ≤ 0xFFFD && c != byteOrderMark)

/-- Are there two neighbours of given kinds? -/
def hasNeighbours (first second : Char → Bool) : List Char → Bool
  | c :: d :: rest => (first c && second d) || hasNeighbours first second (d :: rest)
  | _ => false

def isSpace (c : Char) : Bool := c == ' '

/-- Does a text hold nothing that has to be escaped, and no space before a line break? -/
def isClean (cs : List Char) : Bool :=
  cs.all (fun c => isWritable c || c == '\t') && !hasNeighbours isSpace isBreak cs

def fitsQuotes (cs : List Char) : Bool :=
  isClean cs && !cs.contains '\t' && !hasNeighbours isBreak isSpace cs

def fitsBlock (cs : List Char) : Bool := isClean cs && !cs.getLast?.any isSpace

/-- Does a text end, or go on with a blank? -/
def blankNext : List Char → Bool
  | [] => true
  | c :: _ => isBlank c

/-- Does a plain scalar end inside a text: at a colon before a blank or the end, or at a comment? -/
def endsInside : List Char → Bool
  | [] => false
  | c :: rest =>
    (c == ':' && blankNext rest) || (c == ' ' && rest.head? == some '#') || endsInside rest

/-- Does a text start with a mark that starts no plain scalar, or like a line that separates documents? -/
def startsOddly (cs : List Char) : Bool :=
  ['-', '-', '-'].isPrefixOf cs || ['.', '.', '.'].isPrefixOf cs ||
    match cs with
    | [] => true
    | c :: rest => isIndicator c || ((c == '?' || c == '-') && blankNext rest)

def fitsPlain (cs : List Char) : Bool :=
  fitsQuotes cs && !cs.any isBreak && !startsOddly cs && !endsInside cs && !cs.head?.any isSpace &&
    !cs.getLast?.any isSpace

inductive Style where
  | plain
  | singleQuoted
  | doubleQuoted
  | literal
  deriving DecidableEq

def styleOf (text : String) : Style :=
  let cs := text.toList
  if cs.contains '\n' then if fitsBlock cs then .literal else .doubleQuoted
  else if !meansItself text then .doubleQuoted
  else if fitsPlain cs then .plain
  else if fitsQuotes cs then .singleQuoted
  else .doubleQuoted

/-- The indentation of the lines of a scalar after the first. -/
def margin : List Char := List.replicate 8 ' '

/-- A text between single quotes, after a line break or inside a line. -/
def singleQuotedChars (broken : Bool) : List Char → List Char
  | [] => ['\'']
  | c :: cs =>
    if isBreak c then c :: singleQuotedChars true cs
    else
      (if broken then margin else []) ++ (if c = '\'' then ['\'', '\''] else [c]) ++
        singleQuotedChars false cs

def upperHex (width n : Nat) : List Char := (Text.hexDigits width n).map Char.toUpper

def escapedChar (c : Char) : List Char :=
  let n := c.toNat
  '\\' ::
    if n = 0 then ['0']
    else if n = 7 then ['a']
    else if n = 8 then ['b']
    else if n = 9 then ['t']
    else if n = 10 then ['n']
    else if n = 11 then ['v']
    else if n = 12 then ['f']
    else if n = 13 then ['r']
    else if n = 27 then ['e']
    else if c = '"' ∨ c = '\\' then [c]
    else if n = 0x85 then ['N']
    else if n = 0xA0 then ['_']
    else if n = 0x2028 then ['L']
    else if n = 0x2029 then ['P']
    else if n ≤ 0xFF then 'x' :: upperHex 2 n
    else if n ≤ 0xFFFF then 'u' :: upperHex 4 n
    else 'U' :: upperHex 8 n

/-- A text between double quotes; one that starts with a byte order mark is escaped throughout. -/
def doubleQuotedChars (cs : List Char) : List Char :=
  let marked := cs.head? == some byteOrderMark
  cs.flatMap (fun c =>
    if marked || !isWritable c || isBreak c || c == '"' || c == '\\' then escapedChar c else [c]) ++
    ['"']

/-- The sign of a literal block for the line breaks at the end of a text: one is the rule, none and more are
marked. -/
def chompSign (cs : List Char) : List Char :=
  match cs.reverse with
  | c :: rest => if !isBreak c then ['-'] else if rest.head?.all isBreak then ['+'] else []
  | [] => ['-']

/-- The lines of a literal block, after a line break or inside a line. -/
def literalChars (broken : Bool) : List Char → List Char
  | [] => []
  | c :: cs =>
    if isBreak c then c :: literalChars true cs
    else (if broken then margin else []) ++ c :: literalChars false cs

/-- The sign of a literal block whose text starts with a space or a line break. -/
def indentSign (cs : List Char) : List Char :=
  if cs.head?.any fun c => isSpace c || isBreak c then ['4'] else []

/-- A literal block.  A line break at the start of the text ends the line of its signs. -/
def literalBlock (cs : List Char) : List Char :=
  '|' :: indentSign cs ++ chompSign cs ++ (if cs.head?.any isBreak then [] else ['\n']) ++
    literalChars true cs

def scalarLine (text : String) : List Char :=
  let cs := text.toList
  match styleOf text with
  | .plain => cs ++ ['\n']
  | .singleQuoted => '\'' :: singleQuotedChars false cs ++ ['\n']
  | .doubleQuoted => '"' :: doubleQuotedChars cs ++ ['\n']
  | .literal => literalBlock cs ++ if cs.getLast?.any isBreak then [] else ['\n']

end TileSelect.Yaml
