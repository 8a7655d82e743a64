import TileSelect.Resource
import TileSelect.Source.SyntaxError
import TileSelect.Text.Decimal
import TileSelect.Text.Quoted
import TileSelect.Text.Split

/-! # Expectations

A program text may say in its first lines what it is expected to give: `;;error:L:S-E:message` for a syntax
error at columns `S` to `E` of line `L`, `;;select:name:tile:loc:cost` for the annotation of a value, or
`;;total:cost` for the total.  Lines are looked at from the first on, up to the first that is no expectation of
the wanted kind.  A line that is one but cannot be understood gives an error in place of an item. -/
namespace TileSelect.Expectation

def startsWith (start : String) (cs : List Char) : Bool := start.toList.isPrefixOf cs

/-- The function a numeral was read with, as it is named in wordings. -/
inductive Reader where
  | signed
  | unsigned

def Reader.name : Reader → String
  | .signed => "strconv.Atoi"
  | .unsigned => "strconv.ParseUint"

def numeralMessage (reader : Reader) (text : String) (error : Text.NumeralError) : String :=
  reader.name ++ ": parsing " ++ Text.quoted text ++ ": " ++
    match error with
    | .malformed => "invalid syntax"
    | .tooLarge => "value out of range"

inductive PlaceError where
  | numeral (text : String) (error : Text.NumeralError)
  | lineZero
  | notRange
  | columnZero
  | noLine
  | outsideLine
  deriving DecidableEq

def PlaceError.message : PlaceError → String
  | .numeral text error => numeralMessage .signed text error
  | .lineZero => "lines numbered from 1"
  | .notRange => "malformed, should be X-Y"
  | .columnZero => "columns numbered from 1"
  | .noLine => "non-existent line"
  | .outsideLine => "outside line"

inductive Error where
  /-- Not of the form of an expected error. -/
  | malformedError (contents : String)
  /-- A place, as it is shown, and what is wrong with it. -/
  | invalidPlace (place : String) (error : PlaceError)
  | unknownResource (contents : String)
  | invalidCost (text : String) (error : Text.NumeralError)
  /-- Not of the form of an expected selection. -/
  | malformed (contents : String)
  deriving DecidableEq

def Error.message : Error → String
  | .malformedError contents =>
    "malformed expected error \"" ++ contents ++ "\", should be e.g. \";;error:X:Y-Z:msg\""
  | .invalidPlace place error => "invalid span \"" ++ place ++ "\" (" ++ error.message ++ ")"
  | .unknownResource contents => "unknown resource in \"" ++ contents ++ "\""
  | .invalidCost text error => numeralMessage .unsigned text error
  | .malformed contents => "malformed expectation \"" ++ contents ++ "\""

/-- A line number, two column numbers and a message, as they are written. -/
structure ErrorLine where
  line : Int
  start : Int
  stop : Int
  message : String
  deriving DecidableEq

def readNumber (place text : String) : Except Error Int :=
  (Text.readSigned text).mapError fun error => .invalidPlace place (.numeral text error)

/-- The columns `S-E` of a place. -/
def readColumns (place : List Char) : Except Error (Int × Int) :=
  let shown := String.ofList place
  match Text.splitAt '-' place with
  | [start, stop] => do
    let first ← readNumber shown (String.ofList start)
    if first = 0 then .error (.invalidPlace shown .columnZero)
    else do
      let last ← readNumber shown (String.ofList stop)
      .ok (first, last)
  | _ => .error (.invalidPlace shown .notRange)

def readErrorLine (contents : List Char) : Except Error ErrorLine :=
  match Text.splitAt ':' contents with
  | _ :: line :: columns :: part :: parts => do
    let place := String.ofList (line ++ ':' :: columns)
    let number ← readNumber place (String.ofList line)
    if number = 0 then .error (.invalidPlace place .lineZero)
    else do
      let (start, stop) ← readColumns columns
      .ok ⟨number, start, stop, String.ofList (Text.joinWith ':' (part :: parts))⟩
  | _ => .error (.malformedError (String.ofList contents))

/-- The span of columns of a line, among the lines of a file.  A negative line number is a fault. -/
def findSpan (lines : List Line) (e : ErrorLine) : Except Fault (Except Error Span) :=
  let place := toString e.line ++ ":" ++ toString e.start ++ "-" ++ toString e.stop
  if (lines.length : Int) < e.line then .ok (.error (.invalidPlace place .noLine))
  else if e.line ≤ 0 then .error .outOfRange
  else
    match lines[(e.line - 1).toNat]? with
    | none => .error .outOfRange
    | some line =>
      let start := e.start - 1
      let stop := e.stop - 1
      if (line.length : Int) ≤ start ∨ (line.length : Int) < stop ∨ stop < start then
        .ok (.error (.invalidPlace place .outsideLine))
      else (Span.make (start + line.start) (stop + line.start)).map .ok

def expectedError (file : File) (lines : List Line) (line : Line) :
    Except Fault (Except Error SyntaxError) :=
  match readErrorLine line.text with
  | .error error => .ok (.error error)
  | .ok e => do
    match ← findSpan lines e with
    | .error error => .ok (.error error)
    | .ok span => .ok (.ok ⟨file, span, e.message⟩)

/-- The lines at the start of a file that start with a given text. -/
def leadingLines (wanted : List Char → Bool) (file : File) : List Line :=
  file.lines.takeWhile fun line => wanted line.text

/-- The syntax errors that a file expects, and the lines that cannot be understood. -/
def expectedErrors (file : File) : Except Fault (List (Except Error SyntaxError)) :=
  (leadingLines (startsWith ";;error") file).mapM (expectedError file file.lines)

/-- The tile expected for a value, or the total if the name is empty. -/
structure Selected where
  name : String
  tile : String
  loc : Resource
  cost : Nat
  deriving DecidableEq

def Selected.render (s : Selected) : String :=
  if s.name.isEmpty then "total " ++ toString s.cost
  else s.name ++ " selects " ++ s.tile ++ "@" ++ s.loc.name ++ ":" ++ toString s.cost

def readCost (text : List Char) : Except Error Nat :=
  let text := String.ofList text
  (Text.readUnsigned Text.maxUnsigned32 text).mapError fun error => .invalidCost text error

def isSelection (contents : List Char) : Bool :=
  startsWith ";;select" contents || startsWith ";;total" contents

def expectedSelection (contents : List Char) : Except Error Selected :=
  match startsWith ";;select:" contents, startsWith ";;total:" contents, Text.splitAt ':' contents with
  | true, _, [_, name, tile, loc, cost] =>
    match Resource.parse? (String.ofList loc) with
    | none => .error (.unknownResource (String.ofList contents))
    | some r => do
      let cost ← readCost cost
      .ok ⟨String.ofList name, String.ofList tile, r, cost⟩
  | _, true, [_, cost] => do
    let cost ← readCost cost
    .ok ⟨"", "", .generic, cost⟩
  | _, _, _ => .error (.malformed (String.ofList contents))

def expectedSelections (file : File) : List (Except Error Selected) :=
  (leadingLines isSelection file).map fun line => expectedSelection line.text

end TileSelect.Expectation
