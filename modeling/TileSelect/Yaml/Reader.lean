import TileSelect.Yaml.Basic
import TileSelect.Yaml.Lexer

/-! # Reading YAML

The first document of a text.  Its tokens are read by a machine with a stack of open collections.  What is left out
before a token, a value or a whole entry, is filled in with nothing before the token is read.  Anchors, tags,
directives and block scalars are not read. -/
namespace TileSelect.Yaml

inductive Kind where
  | blockSequence
  /-- A block sequence in the column of the key it belongs to, which has no end of its own. -/
  | levelSequence
  | blockMapping
  | flowSequence
  | flowMapping
  /-- A mapping of one entry in a flow sequence, without braces. -/
  | pair
  deriving DecidableEq

inductive Phase where
  /-- The start of the next item or entry, or the end. -/
  | next
  /-- An item. -/
  | item
  | key
  /-- A colon after a key. -/
  | colon (key : Yaml)
  /-- The value of a key. -/
  | value (key : Yaml)

structure Frame where
  kind : Kind
  phase : Phase
  items : List Yaml := []
  entries : List (Yaml × Yaml) := []

namespace Frame

/-- Gives the collection the node it waits for.  An item of a mapping is a key with nothing. -/
def accept (frame : Frame) (node : Yaml) : Frame :=
  match frame.phase with
  | .next => frame
  | .item =>
    if frame.kind = .flowMapping then
      { frame with phase := .next, entries := frame.entries ++ [(node, null)] }
    else { frame with phase := .next, items := frame.items ++ [node] }
  | .key => { frame with phase := .colon node }
  | .colon _ => frame
  | .value key => { frame with phase := .next, entries := frame.entries ++ [(key, node)] }

def node (frame : Frame) : Yaml :=
  match frame.kind with
  | .blockSequence | .levelSequence | .flowSequence => .sequence frame.items
  | .blockMapping | .flowMapping | .pair => .mapping frame.entries

def waits (frame : Frame) : Bool :=
  match frame.phase with
  | .item | .key | .value _ => true
  | .next | .colon _ => false

/-- May block collections stand in the collection? -/
def isBlock (frame : Frame) : Bool :=
  match frame.kind with
  | .blockSequence | .levelSequence | .blockMapping => true
  | .flowSequence | .flowMapping | .pair => false

def skipsItem : Kind → Token → Bool
  | .blockSequence, .blockEntry | .blockSequence, .blockEnd => true
  | .levelSequence, .blockEntry | .levelSequence, .blockEnd => true
  | .levelSequence, .key | .levelSequence, .value => true
  | _, _ => false

def skipsKey : Kind → Token → Bool
  | .blockMapping, .key | .blockMapping, .value | .blockMapping, .blockEnd => true
  | .flowMapping, .value | .flowMapping, .flowEntry | .flowMapping, .flowMappingEnd => true
  | _, _ => false

def skipsValue : Kind → Token → Bool
  | .blockMapping, .key | .blockMapping, .value | .blockMapping, .blockEnd => true
  | .flowMapping, .flowEntry | .flowMapping, .flowMappingEnd => true
  | .pair, .flowEntry | .pair, .flowSequenceEnd => true
  | _, _ => false

/-- Fills in one node that is left out before a token. -/
def fillOne (token : Token) (frame : Frame) : Frame :=
  match frame.phase with
  | .next => frame
  | .item => if skipsItem frame.kind token then frame.accept null else frame
  | .key => if skipsKey frame.kind token then frame.accept null else frame
  | .colon key =>
    if token = .value then frame
    else { frame with phase := .next, entries := frame.entries ++ [(key, null)] }
  | .value _ => if skipsValue frame.kind token then frame.accept null else frame

/-- Fills in what is left out before a token, at most a key and its value. -/
def fill (token : Token) (frame : Frame) : Frame := (frame.fillOne token).fillOne token

/-- Is a collection that has no end of its own over before a token? -/
def isOver (token : Token) (frame : Frame) : Bool :=
  match frame.kind, frame.phase with
  | .levelSequence, .next => token != .blockEntry
  | .pair, .next => true
  | _, _ => false

end Frame

/-- The open collections, innermost first, and the document if it is complete. -/
structure Builder where
  stack : List Frame := []
  root : Option Yaml := none

namespace Builder

/-- Fills in what is left out before a token, and closes a collection without an end of its own. -/
def settle (token : Token) : List Frame → List Frame
  | [] => []
  | [frame] => [frame.fill token]
  | inner :: frame :: stack =>
    let inner := inner.fill token
    if inner.isOver token then (frame.accept inner.node).fill token :: stack
    else inner :: frame :: stack

def give (node : Yaml) : List Frame → Builder
  | [] => ⟨[], some node⟩
  | frame :: stack => ⟨frame.accept node :: stack, none⟩

def waits : List Frame → Bool
  | [] => true
  | frame :: _ => frame.waits

def waitsBlock : List Frame → Bool
  | [] => true
  | frame :: _ => frame.waits && frame.isBlock

def start (kind : Kind) (phase : Phase) (stack : List Frame) : Builder :=
  ⟨{ kind := kind, phase := phase } :: stack, none⟩

def goOn (frame : Frame) (phase : Phase) (stack : List Frame) : Builder :=
  ⟨{ frame with phase := phase } :: stack, none⟩

def readEntry : List Frame → Option Builder
  | [] => none
  | frame :: stack =>
    match frame.kind, frame.phase with
    | .blockSequence, .next => some (goOn frame .item stack)
    | .levelSequence, .next => some (goOn frame .item stack)
    | .blockMapping, .key => some (start .levelSequence .item (frame :: stack))
    | .blockMapping, .value _ => some (start .levelSequence .item (frame :: stack))
    | _, _ => none

def readComma : List Frame → Option Builder
  | [] => none
  | frame :: stack =>
    match frame.kind, frame.phase with
    | .flowSequence, .next => some (goOn frame .item stack)
    | .flowMapping, .next => some (goOn frame .item stack)
    | .pair, .key => some (goOn frame (.colon null) stack)
    | _, _ => none

def readKey : List Frame → Option Builder
  | [] => none
  | frame :: stack =>
    match frame.kind, frame.phase with
    | .blockMapping, .next => some (goOn frame .key stack)
    | .flowMapping, .item => some (goOn frame .key stack)
    | .flowSequence, .item => some (start .pair .key (frame :: stack))
    | _, _ => none

def readColon : List Frame → Option Builder
  | [] => none
  | frame :: stack =>
    match frame.kind, frame.phase with
    | _, .colon key => some (goOn frame (.value key) stack)
    | .pair, .key => some (goOn frame (.colon null) stack)
    | _, _ => none

def readBlockEnd : List Frame → Option Builder
  | [] => none
  | frame :: stack =>
    match frame.kind, frame.phase with
    | .blockSequence, .next => some (give frame.node stack)
    | .blockMapping, .next => some (give frame.node stack)
    | _, _ => none

/-- Reads a closing bracket; a pair whose key is left out takes one for itself. -/
def readBracketEnd (kind : Kind) : List Frame → Option Builder
  | [] => none
  | frame :: stack =>
    match frame.phase with
    | .next => if frame.kind = kind then some (give frame.node stack) else none
    | .item => if frame.kind = kind then some (give frame.node stack) else none
    | .key =>
      if frame.kind = .pair ∧ kind = .flowSequence then some (goOn frame (.colon null) stack) else none
    | _ => none

/-- Reads a token before which nothing is left out. -/
def read (token : Token) (stack : List Frame) : Option Builder :=
  match token with
  | .scalar quoted text => if waits stack then some (give (.scalar quoted text) stack) else none
  | .flowSequenceStart => if waits stack then some (start .flowSequence .item stack) else none
  | .flowMappingStart => if waits stack then some (start .flowMapping .item stack) else none
  | .blockSequenceStart => if waitsBlock stack then some (start .blockSequence .next stack) else none
  | .blockMappingStart => if waitsBlock stack then some (start .blockMapping .next stack) else none
  | .blockEntry => readEntry stack
  | .flowEntry => readComma stack
  | .key => readKey stack
  | .value => readColon stack
  | .blockEnd => readBlockEnd stack
  | .flowSequenceEnd => readBracketEnd .flowSequence stack
  | .flowMappingEnd => readBracketEnd .flowMapping stack
  | .alias | .documentStart | .documentEnd | .streamEnd => none

def step (b : Builder) (token : Token) : Option Builder := read token (settle token b.stack)

/-- Builds the document from its tokens, up to the token after its last one. -/
def build (b : Builder) : List Token → Option Yaml
  | [] => none
  | token :: tokens =>
    match b.root with
    | some root => some root
    | none => (b.step token).bind (build · tokens)

end Builder

/-- Is there nothing before a token, after the line that starts a document? -/
def endsDocument (token : Token) : Bool :=
  token == .documentStart || token == .documentEnd || token == .streamEnd

/-- The document that tokens hold; if there is none it means nothing. -/
def document? : List Token → Option Yaml
  | [] => none
  | .streamEnd :: _ => some null
  | .documentStart :: tokens =>
    match tokens with
    | [] => none
    | token :: tokens => if endsDocument token then some null else Builder.build {} (token :: tokens)
  | tokens => Builder.build {} tokens

def parse? (source : Source) : Option Yaml := document? (tokens source)

end TileSelect.Yaml
