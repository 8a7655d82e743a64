import TileSelect.Source.File

/-! # Located messages

A syntax error is a message at a span of a file.  It is shown in three ways: with its line only, with its line
and columns on one line, and as a report that prints the line and underlines the span.  Columns count from one
and the end column is one past the last character; a span that runs past its line is cut there. -/
namespace TileSelect

structure SyntaxError where
  file : File
  span : Span
  message : String
  deriving DecidableEq

/-- A cause at a span, before it is worded. -/
structure Located (ε : Type) where
  span : Span
  cause : ε
  deriving DecidableEq

def Located.toSyntaxError {ε : Type} (e : Located ε) (wording : ε → String) (file : File) :
    SyntaxError :=
  ⟨file, e.span, wording e.cause⟩

namespace SyntaxError

def line (e : SyntaxError) : Line := e.file.lineAround e.span

def brief (e : SyntaxError) : String :=
  e.file.name ++ ":" ++ toString e.line.number ++ ": " ++ e.message

/-- File, line, first column, end column and message on one line. -/
def header (e : SyntaxError) (offset length : Int) : String :=
  e.file.name ++ ":" ++ toString e.line.number ++ ":" ++ toString (1 + offset) ++ "-" ++
    toString (1 + offset + length) ++ " " ++ e.message

/-- How far into its line the error starts. -/
def offset (e : SyntaxError) : Int := e.span.start - e.line.start

/-- How many characters of the error's line are inside its span, counted from `offset`. -/
def extent (e : SyntaxError) (offset : Int) : Int :=
  let rest := (e.line.length : Int) - offset
  if rest ≤ e.span.length then rest else e.span.length

/-- The error on one line, an empty span shown as empty. -/
def display (e : SyntaxError) : String := e.header e.offset (e.extent e.offset)

/-- Where the underline of a report starts: inside the line. -/
def caretOffset (e : SyntaxError) : Nat := e.offset.toNat

/-- The length of the underline of a report: at least one. -/
def caretLength (e : SyntaxError) : Nat :=
  let n := (e.extent e.caretOffset).toNat
  if n = 0 then 1 else n

/-- The error with its line printed and underlined. -/
def report (e : SyntaxError) : String :=
  e.header e.caretOffset e.caretLength ++ "\n\n" ++ String.ofList e.line.text ++ "\n" ++
    String.ofList (List.replicate e.caretOffset ' ') ++
    String.ofList (List.replicate e.caretLength '^') ++ "\n"

end SyntaxError
end TileSelect
