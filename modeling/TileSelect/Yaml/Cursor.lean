import TileSelect.Yaml.Source

/-! # Going through a text

A cursor is a place in a text together with what is loaded of it.  To look at a character is to load the windows up
to it, and that fails where the text cannot be read.  How far a reader looks ahead therefore matters, and the ways
through a text are given as steps: some characters are passed over, and some are looked at from there on. -/
namespace TileSelect.Yaml

structure Position where
  index : Nat := 0
  line : Nat := 0
  column : Nat := 0

def Position.advance (p : Position) : List Char → Position
  | [] => p
  | '\r' :: '\n' :: cs => advance ⟨p.index + 2, p.line + 1, 0⟩ cs
  | c :: cs =>
    advance (if isBreak c then ⟨p.index + 1, p.line + 1, 0⟩ else ⟨p.index + 1, p.line, p.column + 1⟩) cs

/-- A place in a text, and how much of it is loaded. -/
structure Cursor where
  /-- The characters from here on that can be read. -/
  rest : List Char
  position : Position := {}
  /-- How many characters from here on are loaded; the end of the text is one for each time it was looked past. -/
  loaded : Nat := 0
  /-- The numbers of characters in the windows that are not loaded. -/
  windows : List Nat
  /-- Does the text end after `rest`? -/
  complete : Bool
  /-- Does what was last loaded start with a byte order mark? -/
  marked : Bool := false

/-- A way of going on: some characters are passed over, and some are looked at from there on. -/
structure Step where
  taken : Nat
  ahead : Nat

namespace Cursor

def ofSource (source : Source) : Cursor :=
  { rest := source.chars, windows := source.windows, complete := source.complete }

/-- Loads windows until `count` characters are loaded: the number of those and the windows left over. -/
def load (count : Nat) : Nat → List Nat → Nat × List Nat
  | loaded, [] => (loaded, [])
  | loaded, window :: windows =>
    if count ≤ loaded then (loaded, window :: windows) else load count (loaded + window) windows

def look (c : Cursor) (count : Nat) : Option Cursor :=
  if count ≤ c.loaded then some c
  else
    let (loaded, windows) := load count c.loaded c.windows
    let marked := c.rest.head? == some byteOrderMark
    if count ≤ loaded then some { c with loaded := loaded, windows := windows, marked := marked }
    else if c.complete then some { c with loaded := loaded + 1, windows := windows, marked := marked }
    else none

/-- Looks at one character, then at two, and so on. -/
def lookOn (c : Cursor) (count : Nat) : Option Cursor :=
  (List.range count).foldlM (fun c n => c.look (n + 1)) c

def skip (c : Cursor) (count : Nat) : Cursor :=
  { c with
    rest := c.rest.drop count
    position := c.position.advance (c.rest.take count)
    loaded := c.loaded - count }

def follow (c : Cursor) (steps : List Step) : Option Cursor :=
  steps.foldlM (fun c step => (c.skip step.taken).look step.ahead) c

/-- Passes over some characters, one after another. -/
def pass (c : Cursor) (count : Nat) : Option Cursor := c.follow (List.replicate count ⟨1, 1⟩)

/-- Passes over one character, whatever it is, at the start of a line if what is loaded starts with a byte order
mark. -/
def skipMark (c : Cursor) : Cursor :=
  if c.position.column == 0 && c.marked then
    { c with
      rest := c.rest.drop 1
      position := ⟨c.position.index + 1, c.position.line, 1⟩
      loaded := c.loaded - 1 }
  else c

end Cursor

def breakSteps (length : Nat) : List Step := [⟨0, 2⟩, ⟨length, 1⟩]

/-- The steps over words, blanks and line breaks, after a gap or inside a word.  At the start of a word four
characters are looked at. -/
def layoutSteps (afterGap : Bool) : List Char → List Step
  | [] => []
  | '\r' :: '\n' :: cs => breakSteps 2 ++ layoutSteps true cs
  | c :: cs =>
    if isBreak c then breakSteps 1 ++ layoutSteps true cs
    else if isBlank c then ⟨1, 1⟩ :: layoutSteps true cs
    else if afterGap then ⟨0, 4⟩ :: ⟨1, 2⟩ :: layoutSteps false cs
    else ⟨1, 2⟩ :: layoutSteps false cs

end TileSelect.Yaml
