import TileSelect.Source.SyntaxError
import TileSelect.SExpr.Basic
import TileSelect.Text.Blank

/-! # Reading s-expressions

A text is first cut into lexemes: parentheses and symbols, with blanks and comments left out.  A comment runs
from a semicolon to the end of its line.  Lexemes are then put together with a stack of the lists that are
still open.  Reading fails in two ways only: a list is closed that was never opened, or the text ends inside a
list.  A failure at a closing parenthesis leaves that parenthesis in place. -/
namespace TileSelect.SExpr

def endsSymbol (c : Char) : Bool := c == '(' || c == ')' || c == ';' || Text.isBlank c

/-- A parenthesis or a symbol, with the position of its first character. -/
inductive Lexeme where
  | left (start : Nat)
  | right (start : Nat)
  | word (start : Nat) (text : List Char)
  deriving DecidableEq

def lexemes (position : Nat) (cs : List Char) : List Lexeme :=
  match cs with
  | [] => []
  | c :: rest =>
    if c = '(' then .left position :: lexemes (position + 1) rest
    else if c = ')' then .right position :: lexemes (position + 1) rest
    else if c = ';' then
      lexemes (position + 1 + (rest.takeWhile (· != '\n')).length) (rest.dropWhile (· != '\n'))
    else if Text.isBlank c then lexemes (position + 1) rest
    else
      let tail := rest.takeWhile (!endsSymbol ·)
      .word position (c :: tail) ::
        lexemes (position + 1 + tail.length) (rest.dropWhile (!endsSymbol ·))
termination_by cs.length
decreasing_by
  all_goals
    simp only [List.length_cons]
    first
      | omega
      | exact Nat.lt_succ_of_le (List.dropWhile_suffix _).length_le

inductive ReadError where
  /-- A list is closed that was never opened. -/
  | unopened
  /-- The text ends inside a list. -/
  | unclosed
  deriving DecidableEq, Repr

def ReadError.message : ReadError → String
  | .unopened => "unexpected end-of-list"
  | .unclosed => "unexpected end-of-file"

/-- A list that is still open: where it starts and its items so far. -/
structure OpenList where
  start : Nat
  items : List (SExpr Span)

inductive Reading where
  /-- There was nothing left to read. -/
  | done
  /-- A term, and the lexemes after it. -/
  | term (term : SExpr Span) (rest : List Lexeme)
  /-- A failure, and the lexemes from which reading may go on. -/
  | failure (error : Located ReadError) (rest : List Lexeme)

/-- Reads one term of a text of the given length, inside the lists in `stack`, innermost first. -/
def readInside (length : Nat) (stack : List OpenList) : List Lexeme → Reading
  | [] =>
    match stack with
    | [] => .done
    | _ :: _ => .failure ⟨Span.point length, .unclosed⟩ []
  | .left start :: rest => readInside length (⟨start, []⟩ :: stack) rest
  | .right start :: rest =>
    match stack with
    | [] => .failure ⟨Span.between start (start + 1), .unopened⟩ (.right start :: rest)
    | [inner] => .term (.list (Span.between inner.start (start + 1)) inner.items) rest
    | inner :: outer :: stack =>
      let term := SExpr.list (Span.between inner.start (start + 1)) inner.items
      readInside length ({ outer with items := outer.items ++ [term] } :: stack) rest
  | .word start text :: rest =>
    let term := SExpr.symbol (Span.between start (start + text.length)) (String.ofList text)
    match stack with
    | [] => .term term rest
    | inner :: stack => readInside length ({ inner with items := inner.items ++ [term] } :: stack) rest

/-- A term is followed by fewer lexemes than it was read from. -/
theorem length_rest_lt {length : Nat} {stack : List OpenList} {lexemes rest : List Lexeme}
    {term : SExpr Span} (h : readInside length stack lexemes = .term term rest) :
    rest.length < lexemes.length := by
  induction lexemes generalizing stack with
  | nil => cases stack <;> simp [readInside] at h
  | cons lexeme lexemes ih =>
    cases lexeme with
    | left start => exact Nat.lt_succ_of_lt (ih h)
    | right start =>
      match stack with
      | [] => simp [readInside] at h
      | [inner] =>
        simp only [readInside, Reading.term.injEq] at h
        simp [h.2]
      | inner :: outer :: stack => exact Nat.lt_succ_of_lt (ih h)
    | word start text =>
      match stack with
      | [] =>
        simp only [readInside, Reading.term.injEq] at h
        simp [h.2]
      | inner :: stack => exact Nat.lt_succ_of_lt (ih h)

structure Reader where
  /-- The length of the text. -/
  length : Nat
  /-- What is left to read. -/
  lexemes : List Lexeme

def Reader.ofText (cs : List Char) : Reader := ⟨cs.length, SExpr.lexemes 0 cs⟩

/-- Reads the next term; the reader returned goes on where this one stopped. -/
def Reader.next (reader : Reader) : Except (Located ReadError) (Option (SExpr Span)) × Reader :=
  match readInside reader.length [] reader.lexemes with
  | .done => (.ok none, reader)
  | .term term rest => (.ok (some term), { reader with lexemes := rest })
  | .failure error rest => (.error error, { reader with lexemes := rest })

def readLexemes (length : Nat) (lexemes : List Lexeme) :
    Except (Located ReadError) (List (SExpr Span)) :=
  match _hread : readInside length [] lexemes with
  | .done => .ok []
  | .failure error _ => .error error
  | .term term rest => (readLexemes length rest).map (term :: ·)
termination_by lexemes.length
decreasing_by exact length_rest_lt _hread

theorem readLexemes_of_term {length : Nat} {lexemes rest : List Lexeme} {term : SExpr Span}
    (h : readInside length [] lexemes = .term term rest) :
    readLexemes length lexemes = (readLexemes length rest).map (term :: ·) := by
  rw [readLexemes]
  split <;> simp_all

def readAll (cs : List Char) : Except (Located ReadError) (List (SExpr Span)) :=
  readLexemes cs.length (lexemes 0 cs)

def parseFile (file : File) : Except SyntaxError (List (SExpr Span)) :=
  (readAll file.contents).mapError fun error => error.toSyntaxError ReadError.message file

end TileSelect.SExpr
