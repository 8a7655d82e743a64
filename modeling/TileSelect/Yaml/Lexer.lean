import TileSelect.Yaml.Gap
import TileSelect.Yaml.Scalar
import TileSelect.Yaml.Token

/-! # Cutting YAML into tokens

Block collections have no brackets in the text; the columns of their items and keys say where they start and end.

A key is known by the colon after it.  So a node that may be a key is a candidate until a colon follows it on its
line and within `keyLength` characters, and only then is it preceded by a key token.  Tokens from a candidate on can
be read once it is clear what it is; two further tokens are wanted in any case.  Where the text stops making
sense, the tokens before that are the ones that can be read. -/
namespace TileSelect.Yaml

/-- The largest distance between the start of a key and its colon. -/
def keyLength : Nat := 1024

/-- A node that is a key if a colon follows it. -/
structure Candidate where
  /-- The number of tokens before it. -/
  number : Nat
  position : Position
  /-- Does it stand where the keys of a block mapping do, so that it has to be one? -/
  required : Bool
  /-- Are tokens held back until it is clear whether it is a key? -/
  awaited : Bool := true

/-- May a colon at a place still make the candidate a key? -/
def Candidate.isCurrent (candidate : Candidate) (p : Position) : Bool :=
  candidate.position.line == p.line && p.index ≤ candidate.position.index + keyLength

/-- What is known about keys between two brackets, or outside all of them. -/
structure Level where
  candidate : Option Candidate := none
  /-- The number of tokens before the opening bracket, as long as nothing inside could be a key. -/
  idle : Option Nat := none

structure Lexer extends Cursor where
  /-- May a key or an item start here? -/
  fresh : Bool := true
  /-- The columns of the open block collections, innermost first. -/
  columns : List Nat := []
  level : Level := {}
  /-- The levels around this one, innermost first. -/
  outer : List Level := []
  /-- The tokens so far, newest first. -/
  newest : List Token := []
  /-- How many tokens there are. -/
  count : Nat := 0

namespace Lexer

/-- Are there open brackets? -/
def inFlow (s : Lexer) : Bool := !s.outer.isEmpty

/-- The first column that belongs to the innermost block collection. -/
def limit (s : Lexer) : Nat := s.columns.head?.elim 0 (· + 1)

def move (s : Lexer) (motion : Cursor → Option Cursor) : Option Lexer :=
  (motion s.toCursor).map fun cursor => { s with toCursor := cursor }

def push (s : Lexer) (token : Token) : Lexer :=
  { s with newest := token :: s.newest, count := s.count + 1 }

/-- The number of tokens that can be read: two more have to follow, and no awaited candidate may stand before
or among them. -/
def settled (s : Lexer) : Nat :=
  (s.level :: s.outer).foldl (fun count level =>
    match level.candidate with
    | some candidate =>
      if candidate.awaited && (candidate.required || candidate.isCurrent s.position) then
        min count candidate.number
      else count
    | none => count) (s.count - 2)

def readable (s : Lexer) : List Token := (s.newest.drop (s.count - s.settled)).reverse

/-- Skips blanks, line breaks and comments.  A key or an item may start on a new line; a tab is no blank where one may
start.  Each line takes one of `fuel`. -/
def skipGap (s : Lexer) : Nat → Option Lexer
  | 0 => some s
  | fuel + 1 => do
    let s ← s.move (·.look 1)
    let s ← s.move (·.skipMark.look 1)
    let s ← s.move (·.skipBlanks (s.inFlow || !s.fresh))
    let s ← if s.rest.head? == some '#' then s.move (·.skipComments fuel) else some s
    let length := breakLength s.rest
    if length = 0 then some s
    else do
      let s ← s.move (·.follow [⟨0, 2⟩, ⟨length, 0⟩])
      skipGap { s with fresh := s.fresh || !s.inFlow } fuel

/-- Adds a token that some steps go over, and skips a comment after it. -/
def emit (s : Lexer) (token : Token) (steps : List Step) : Option Lexer :=
  (s.push token).move fun cursor => (cursor.follow steps).bind Cursor.skipLineComment

def emitChar (s : Lexer) (token : Token) : Option Lexer := s.emit token [⟨1, 0⟩]

/-- Closes the block collections that start to the right of a column, or all of them. -/
def closeBlocks (s : Lexer) (column : Option Nat) : Lexer :=
  if s.inFlow then s
  else
    let closed := s.columns.takeWhile fun start => column.all (· < start)
    closed.foldl (fun s _ => s.push .blockEnd) { s with columns := s.columns.drop closed.length }

def opensBlock (s : Lexer) (column : Nat) : Bool := !s.inFlow && s.columns.head?.all (· < column)

/-- Opens a block collection here if one starts here. -/
def openBlock (s : Lexer) (start : Token) : Lexer :=
  if s.opensBlock s.position.column then
    { s.push start with columns := s.position.column :: s.columns }
  else s

/-- Gives up the candidate of this level, which must not have to be a key. -/
def dropCandidate (s : Lexer) : Option Lexer :=
  if s.level.candidate.any (·.required) then none
  else some { s with level := { s.level with candidate := none } }

/-- Makes the node that starts here a candidate if a key may start here; none may start right after it. -/
def offer (s : Lexer) : Option Lexer :=
  if s.fresh then
    s.dropCandidate.map fun s =>
      { s with
        fresh := false
        level :=
          { candidate := some
              { number := s.count
                position := s.position
                required := !s.inFlow && s.columns.head? == some s.position.column } } }
  else some s

/-- Puts a key token before a candidate, and the start of a mapping if one starts there.  If the candidate can be
read already, the tokens come too late for it and are put at the end; `settled` tokens can be read. -/
def insertKey (s : Lexer) (settled : Nat) (candidate : Candidate) : Lexer :=
  let opens := s.opensBlock candidate.position.column
  let added := if opens then [Token.key, Token.blockMappingStart] else [Token.key]
  let later := if candidate.number < settled then 0 else s.count - candidate.number
  { s with
    fresh := false
    level := { s.level with candidate := none }
    columns := if opens then candidate.position.column :: s.columns else s.columns
    newest := s.newest.take later ++ added ++ s.newest.drop later
    count := s.count + added.length }

/-- A colon after something else than a candidate. -/
def lateColon (s : Lexer) : Option Lexer :=
  if s.inFlow then some { s with fresh := false }
  else if s.fresh then some (s.openBlock .blockMappingStart)
  else none

def colon (s : Lexer) (settled : Nat) : Option Lexer :=
  let after :=
    match s.level.candidate with
    | some candidate =>
      if candidate.isCurrent s.position then some (s.insertKey settled candidate)
      else s.dropCandidate.bind lateColon
    | none => s.lateColon
  after.bind (·.emitChar .value)

def question (s : Lexer) : Option Lexer :=
  if s.inFlow || s.fresh then
    (s.openBlock .blockMappingStart).dropCandidate.bind fun s =>
      { s with fresh := !s.inFlow }.emitChar .key
  else none

def dash (s : Lexer) : Option Lexer :=
  if s.inFlow || s.fresh then
    (s.openBlock .blockSequenceStart).dropCandidate.bind fun s =>
      ({ s with fresh := true }.push .blockEntry).move (some <| ·.skip 1)
  else none

/-- The number of brackets, and of block collections, that may be open. -/
def maxDepth : Nat := 10000

def openBracket (s : Lexer) (token : Token) : Option Lexer :=
  s.offer.bind fun s =>
    { s with
      fresh := true
      level := { idle := some s.count }
      outer := s.level :: s.outer }.emitChar token

/-- Stops waiting for a candidate, given the number of tokens before it. -/
def release (level : Level) (number : Nat) : Level :=
  { level with
    candidate := level.candidate.map fun candidate =>
      if candidate.number = number then { candidate with awaited := false } else candidate }

/-- A closing bracket.  A collection in which nothing could be a key is not awaited itself. -/
def closeBracket (s : Lexer) (token : Token) : Option Lexer :=
  s.dropCandidate.bind fun s =>
    let s :=
      match s.outer with
      | [] => s
      | level :: outer =>
        { s with level := s.level.idle.elim level (release level), outer := outer }
    { s with fresh := false }.emitChar token

def comma (s : Lexer) : Option Lexer :=
  s.dropCandidate.bind fun s => { s with fresh := true }.emitChar .flowEntry

def quoted (s : Lexer) (quote : Char) : Option Lexer := do
  let found ← quotedScalar quote s.rest.tail
  let s ← s.offer
  s.emit (.scalar true (String.ofList found.text)) found.steps

/-- A plain scalar.  After a line break a key may start again. -/
def plain (s : Lexer) : Option Lexer := do
  let found ← plainScalar s.inFlow s.limit s.position.column s.rest
  let s ← s.offer
  let token := Token.scalar false (String.ofList found.text)
  let steps := found.steps s.rest
  if found.broken then ({ s with fresh := true }.push token).move (·.follow steps)
  else s.emit token steps

def isNameChar (c : Char) : Bool := c.isAlphanum || c == '_' || c == '-'

def endsName : List Char → Bool
  | [] => true
  | c :: _ =>
    isGap c || c == '?' || c == ':' || c == ',' || c == ']' || c == '\x7d' || c == '%' || c == '@' ||
      c.toNat == 0x60

def reference (s : Lexer) : Option Lexer :=
  let length := (s.rest.tail.takeWhile isNameChar).length
  if 0 < length && endsName (s.rest.tail.drop length) then
    s.offer.bind (·.emit .alias (List.replicate (length + 1) ⟨1, 1⟩))
  else none

def marker (s : Lexer) (c : Char) : Option Lexer :=
  (s.closeBlocks none).dropCandidate.bind fun s =>
    ({ s with fresh := false }.push (if c = '-' then .documentStart else .documentEnd)).move
      (some <| ·.skip 3)

def finish (s : Lexer) : Option Lexer :=
  (s.closeBlocks none).dropCandidate.map fun s => { s with fresh := false }.push .streamEnd

/-- The token that starts with a character; `settled` tokens before it can be read. -/
def token (s : Lexer) (settled : Nat) (c : Char) (rest : List Char) : Option Lexer :=
  if c = '[' then s.openBracket .flowSequenceStart
  else if c = '\x7b' then s.openBracket .flowMappingStart
  else if c = ']' then s.closeBracket .flowSequenceEnd
  else if c = '\x7d' then s.closeBracket .flowMappingEnd
  else if c = ',' then s.comma
  else if c = '-' ∧ gapNext rest then s.dash
  else if c = '?' ∧ (s.inFlow ∨ gapNext rest) then s.question
  else if c = ':' ∧ (s.inFlow ∨ gapNext rest) then s.colon settled
  else if c = '*' then s.reference
  else if c = '"' ∨ c = '\'' then s.quoted c
  else if startsPlain s.inFlow c rest then s.plain
  else none

def isShallow (s : Lexer) : Bool := s.columns.length ≤ maxDepth && s.outer.length ≤ maxDepth

/-- Goes on by one token and the ends of the collections before it; `fuel` is enough for every line. -/
def next (fuel : Nat) (s : Lexer) : Option Lexer := do
  let settled := s.settled
  let s ← s.skipGap fuel
  let s ← (s.closeBlocks (some s.position.column)).move (·.look 4)
  match s.rest with
  | [] => s.finish
  | c :: rest =>
    if s.position.column == 0 && isMarker s.rest then s.marker c
    else (s.token settled c rest).filter isShallow

/-- The tokens that can be read; each step takes a character or ends, and `fuel` allows one for each. -/
def run : Nat → Lexer → List Token
  | 0, s => s.readable
  | fuel + 1, s =>
    match s.next (fuel + 1) with
    | none => s.readable
    | some s => if s.newest.head? == some .streamEnd then s.newest.reverse else run fuel s

end Lexer

def tokens (source : Source) : List Token :=
  Lexer.run (source.chars.length + 1) { toCursor := Cursor.ofSource source }

end TileSelect.Yaml
