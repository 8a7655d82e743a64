import TileSelect.Json.Reader
import TileSelect.Yaml.Cursor

/-! # Scalars of YAML

A scalar is plain, between single quotes or between double quotes.  It may run over several lines, which are
folded: blanks around line breaks are dropped, one newline is a space, and of several all but the first are kept,
a separator always.  A plain scalar ends before a colon that a gap follows and before a comment; inside brackets it
also ends before a bracket, a comma or a question mark. -/
namespace TileSelect.Yaml

/-- What stands between two words of a scalar. -/
inductive Space where
  /-- Blanks on one line. -/
  | blanks (cs : List Char)
  /-- Line breaks; the blanks around them are dropped. -/
  | breaks (cs : List Char)
  /-- An escaped line break, which stands for nothing, and the line breaks after it. -/
  | joined (cs : List Char)

namespace Space

def addBlank (c : Char) : Space → Space
  | blanks cs => blanks (cs ++ [c])
  | space => space

def addBreak (c : Char) : Space → Space
  | blanks _ => breaks [c]
  | breaks cs => breaks (cs ++ [c])
  | joined cs => joined (cs ++ [c])

/-- What the space is folded to. -/
def text : Space → List Char
  | blanks cs => cs
  | breaks ['\n'] => [' ']
  | breaks ('\n' :: more) => more
  | breaks cs => cs
  | joined cs => cs

def isBroken : Space → Bool
  | breaks _ => true
  | _ => false

end Space

def spaceOf (gap : List Char) : Space :=
  (plainBreaks gap).foldl (fun space c => if isBreak c then space.addBreak c else space.addBlank c)
    (.blanks [])

inductive Part where
  /-- A character that is kept. -/
  | char (c : Char)
  | blank (c : Char)
  | lineBreak (c : Char)
  /-- An escaped line break. -/
  | joint

/-- A part and the steps over what is written for it. -/
structure Piece where
  part : Part
  steps : List Step

def Piece.ofChar (c : Char) : Piece :=
  if isBreak c then ⟨.lineBreak (breakChar c), breakSteps 1⟩
  else if isBlank c then ⟨.blank c, [⟨1, 1⟩]⟩
  else ⟨.char c, [⟨1, 2⟩]⟩

def Piece.longBreak : Piece := ⟨.lineBreak '\n', breakSteps 2⟩

/-- An escaped line break of some characters. -/
def Piece.joint (length : Nat) : Piece := ⟨.joint, [⟨0, 3⟩, ⟨length + 1, 1⟩]⟩

def Piece.escaped (c : Char) : Piece := ⟨.char c, [⟨2, 2⟩]⟩

def Piece.numbered (digits : Nat) (c : Char) : Piece := ⟨.char c, [⟨2, digits⟩, ⟨digits, 2⟩]⟩

/-- Folds the lines of a quoted scalar after some space. -/
def foldParts (space : Space) : List Part → List Char
  | [] => space.text
  | .char c :: parts => space.text ++ c :: foldParts (.blanks []) parts
  | .blank c :: parts => foldParts (space.addBlank c) parts
  | .lineBreak c :: parts => foldParts (space.addBreak c) parts
  | .joint :: parts => space.text ++ foldParts (.joined []) parts

inductive Before where
  | word
  | gap
  | joint
  deriving DecidableEq

def Part.before : Part → Before
  | .char _ => .word
  | .blank _ | .lineBreak _ => .gap
  | .joint => .joint

/-- The steps over a quoted scalar up to its closing quote.  Four characters are looked at before a word, and at the
closing quote if a gap stands before it. -/
def pieceSteps (before : Before) : List Piece → List Step
  | [] => if before = .gap then [⟨0, 4⟩] else []
  | piece :: pieces =>
    (if before = .word ∨ piece.part.before = .gap then [] else [⟨0, 4⟩]) ++ piece.steps ++
      pieceSteps piece.part.before pieces

def withPiece (piece : Piece) (found : Option (List Piece)) : Option (List Piece) :=
  found.map (piece :: ·)

/-- Does a line that separates documents start after a character? -/
def startsMarker (c : Char) (rest : List Char) : Bool := isBreak c && isMarker rest

/-- The pieces of a scalar up to its closing single quote; two quotes stand for one.  No line may separate
documents. -/
def singleQuoted : List Char → Option (List Piece)
  | [] => none
  | '\'' :: '\'' :: rest => withPiece (.escaped '\'') (singleQuoted rest)
  | '\'' :: _ => some []
  | '\r' :: '\n' :: rest => if isMarker rest then none else withPiece .longBreak (singleQuoted rest)
  | c :: rest => if startsMarker c rest then none else withPiece (.ofChar c) (singleQuoted rest)

def escape? (c : Char) : Option Nat :=
  if c = '0' then some 0
  else if c = 'a' then some 7
  else if c = 'b' then some 8
  else if c = 't' ∨ c = '\t' then some 9
  else if c = 'n' then some 10
  else if c = 'v' then some 11
  else if c = 'f' then some 12
  else if c = 'r' then some 13
  else if c = 'e' then some 27
  else if c = ' ' ∨ c = '"' ∨ c = '\\' ∨ c = '\'' then some c.toNat
  else if c = 'N' then some 0x85
  else if c = '_' then some 0xA0
  else if c = 'L' then some 0x2028
  else if c = 'P' then some 0x2029
  else none

/-- The character of a code point given by hexadecimal digits. -/
def hexChar? (digits : List Char) : Option Char := do
  let code ← digits.foldlM (fun n c => (Json.hexDigit? c).map (n * 16 + ·)) 0
  if 0x10FFFF < code ∨ Json.isSurrogate code then none else some (Char.ofNat code)

/-- The pieces of a scalar up to its closing double quote.  No line may separate documents. -/
def doubleQuoted : List Char → Option (List Piece)
  | [] => none
  | '"' :: _ => some []
  | '\\' :: 'x' :: a :: b :: rest =>
    (hexChar? [a, b]).bind fun c => withPiece (.numbered 2 c) (doubleQuoted rest)
  | '\\' :: 'u' :: a :: b :: c :: d :: rest =>
    (hexChar? [a, b, c, d]).bind fun c => withPiece (.numbered 4 c) (doubleQuoted rest)
  | '\\' :: 'U' :: a :: b :: c :: d :: e :: f :: g :: h :: rest =>
    (hexChar? [a, b, c, d, e, f, g, h]).bind fun c => withPiece (.numbered 8 c) (doubleQuoted rest)
  | '\\' :: '\r' :: '\n' :: rest =>
    if isMarker rest then none else withPiece (.joint 2) (doubleQuoted rest)
  | '\\' :: c :: rest =>
    if startsMarker c rest then none
    else if isBreak c then withPiece (.joint 1) (doubleQuoted rest)
    else (escape? c).bind fun code => withPiece (.escaped (Char.ofNat code)) (doubleQuoted rest)
  | '\r' :: '\n' :: rest => if isMarker rest then none else withPiece .longBreak (doubleQuoted rest)
  | c :: rest => if startsMarker c rest then none else withPiece (.ofChar c) (doubleQuoted rest)

structure Scalar where
  text : List Char
  steps : List Step

def quotedScalar (quote : Char) (cs : List Char) : Option Scalar :=
  (if quote = '"' then doubleQuoted cs else singleQuoted cs).map fun pieces =>
    { text := foldParts (.blanks []) (pieces.map Piece.part)
      steps := ⟨1, 4⟩ :: pieceSteps .word pieces ++ [⟨1, 0⟩] }

def startsPlain (flow : Bool) (c : Char) (rest : List Char) : Bool :=
  if c = '-' then !gapNext rest
  else if c = '?' ∨ c = ':' then !flow && !gapNext rest
  else !isGap c && !isIndicator c

def endsPlain (flow : Bool) (c : Char) (rest : List Char) : Bool :=
  isGap c || (c == ':' && gapNext rest) || (flow && isFlowIndicator c)

/-- The characters of a plain scalar up to a gap or its end, and what follows. -/
def plainWord (flow : Bool) : List Char → List Char × List Char
  | [] => ([], [])
  | c :: rest =>
    if endsPlain flow c rest then ([], c :: rest)
    else
      let (word, rest) := plainWord flow rest
      (c :: word, rest)

theorem plainWord_append (flow : Bool) (cs : List Char) :
    (plainWord flow cs).1 ++ (plainWord flow cs).2 = cs := by
  induction cs with
  | nil => rfl
  | cons c rest ih =>
    rw [plainWord]
    split
    · rfl
    · exact congrArg (c :: ·) ih

theorem length_plainWord (flow : Bool) (cs : List Char) :
    (plainWord flow cs).1.length + (plainWord flow cs).2.length = cs.length := by
  rw [← List.length_append, plainWord_append]

def columnAfter (column : Nat) (text : List Char) : Nat :=
  text.foldl (fun column c => if isBreak c then 0 else column + 1) column

/-- Does a tab stand before column `limit` of a line that starts in a gap? -/
def indentsWithTab (limit : Nat) (column : Option Nat) : List Char → Bool
  | [] => false
  | c :: cs =>
    if isBreak c then indentsWithTab limit (some 0) cs
    else (c == '\t' && column.any (· < limit)) || indentsWithTab limit (column.map (· + 1)) cs

structure Plain where
  text : List Char
  /-- How many characters it takes with the gap after it. -/
  length : Nat
  /-- Is there a line break in the gap after it? -/
  broken : Bool
  /-- Was another word looked for after the gap? -/
  searched : Bool

/-- Goes on with a plain scalar of some text and length that ends in a column.  Outside brackets, a line that starts
before column `limit` does not belong to it, and a tab may not indent a line up to there. -/
def plainTail (flow : Bool) (limit column : Nat) (text : List Char) (length : Nat) (cs : List Char) :
    Option Plain :=
  let gap := cs.takeWhile isGap
  let next := columnAfter column gap
  let space := spaceOf gap
  let belongs := flow || limit ≤ next
  let found : Plain := ⟨text, length + gap.length, space.isBroken, !gap.isEmpty && belongs⟩
  if indentsWithTab limit none gap then none
  else
    match _h : plainWord flow (cs.dropWhile isGap) with
    | ([], _) => some found
    | (c :: word, rest) =>
      if gap.isEmpty || c == '#' || !belongs || (next == 0 && isMarker (cs.dropWhile isGap)) then
        some found
      else
        plainTail flow limit (next + 1 + word.length) (text ++ space.text ++ c :: word)
          (length + gap.length + 1 + word.length) rest
termination_by cs.length
decreasing_by
  have split := length_plainWord flow (cs.dropWhile isGap)
  have shorter := (List.dropWhile_suffix isGap (l := cs)).length_le
  rw [_h] at split
  simp only [List.length_cons] at split
  omega

def plainScalar (flow : Bool) (limit column : Nat) (cs : List Char) : Option Plain :=
  let (word, rest) := plainWord flow cs
  plainTail flow limit (column + word.length) word word.length rest

def Plain.steps (found : Plain) (cs : List Char) : List Step :=
  layoutSteps true (cs.take found.length) ++ if found.searched then [⟨0, 4⟩] else []

end TileSelect.Yaml
