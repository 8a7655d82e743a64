/-! # Characters of YAML

What a character is to the layout of a YAML document: a blank, a line break, a mark that separates items, or a
character that may not stand in a document at all.  A carriage return and the newline after it are one line break.
All line breaks but the two that Unicode calls separators stand for a newline. -/
namespace TileSelect.Yaml

def isBlank (c : Char) : Bool := c == ' ' || c == '\t'

def isReturn (c : Char) : Bool := c == '\n' || c == '\r'

def isBreak (c : Char) : Bool := isReturn c || c == '\u0085' || c == '\u2028' || c == '\u2029'

/-- The number of characters of the line break at the start of a text, if there is one. -/
def breakLength : List Char → Nat
  | [] => 0
  | '\r' :: '\n' :: _ => 2
  | c :: _ => if isBreak c then 1 else 0

/-- What a line break of one character stands for. -/
def breakChar (c : Char) : Char := if isReturn c || c == '\u0085' then '\n' else c

def isGap (c : Char) : Bool := isBlank c || isBreak c

/-- Does a text go on with a blank or a line break, or end? -/
def gapNext : List Char → Bool
  | [] => true
  | c :: _ => isGap c

/-- The characters that end a plain scalar inside brackets. -/
def isFlowIndicator (c : Char) : Bool :=
  c == ',' || c == '?' || c == '[' || c == ']' || c == '\x7b' || c == '\x7d'

/-- The characters that start no plain scalar. -/
def isIndicator (c : Char) : Bool :=
  c == ',' || c == '[' || c == ']' || c == '\x7b' || c == '\x7d' || c == '#' || c == '&' || c == '*' ||
    c == '!' || c == '|' || c == '>' || c == '\'' || c == '"' || c == '%' || c == '@' || c.toNat == 0x60

/-- Is this a line that separates documents? -/
def isMarker (cs : List Char) : Bool :=
  (cs.take 3 == ['-', '-', '-'] || cs.take 3 == ['.', '.', '.']) && gapNext (cs.drop 3)

def isAllowed (c : Char) : Bool :=
  let n := c.toNat
  n == 9 || n == 10 || n == 13 || (0x20 ≤ n && n ≤ 0x7E) || n == 0x85 ||
    (0xA0 ≤ n && n != 0xFFFE && n != 0xFFFF)

/-- Blanks and line breaks, each line break as the one character it stands for. -/
def plainBreaks : List Char → List Char
  | [] => []
  | '\r' :: '\n' :: rest => '\n' :: plainBreaks rest
  | c :: rest => breakChar c :: plainBreaks rest

def byteOrderMark : Char := '\uFEFF'

end TileSelect.Yaml
