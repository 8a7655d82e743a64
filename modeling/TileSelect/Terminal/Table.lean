import TileSelect.Fault
import TileSelect.Terminal.Escape

/-! # Tables

A table has a fixed number of columns.  A column is as wide as its widest cell, or narrower if a limit was set
after that cell was added; limits below three count as three.  A cell that does not fit its column is cut two
characters short of it and marked with two dots.  Any other is padded to the width of its column; a column wider
than a million characters is not padded to, and a mark says so in front of each such cell. -/
namespace TileSelect.Terminal

/-- A cell and the escape sequence it is printed with, which may be empty. -/
structure Cell where
  text : String
  escape : String := ""

structure Table where
  widths : List Nat
  rows : List (List Cell) := []
  /-- Are escape sequences printed? -/
  escapes : Bool := true

namespace Table

def ofColumns (columns : Nat) : Table := { widths := List.replicate columns 0 }

/-- The largest number of columns that can be asked for. -/
def maxColumns : Nat := 0x200000000000

/-- A table with a number of columns and no row, if there can be so many columns. -/
def ofColumns? (columns : Nat) : Except Fault Table :=
  if maxColumns < columns then .error .outOfRange else .ok (ofColumns columns)

def width (table : Table) : Nat := table.widths.length

def height (table : Table) : Nat := table.rows.length

/-- Adds a row, widening columns for its cells, and gives its index. -/
def addRow (table : Table) (cells : List String) : Except Fault (Nat × Table) :=
  if cells.length = table.widths.length then
    .ok (table.height, { table with
      widths := List.zipWith (fun width cell => max width cell.length) table.widths cells
      rows := table.rows ++ [cells.map fun cell => { text := cell }] })
  else .error .columnCount

def cell (table : Table) (column row : Nat) : Except Fault Cell :=
  match table.rows[row]?.bind fun cells => cells[column]? with
  | some cell => .ok cell
  | none => .error .outOfRange

def get (table : Table) (column row : Nat) : Except Fault String := (table.cell column row).map Cell.text

/-- Sets the escape sequence of a cell. -/
def decorate (table : Table) (column row : Nat) (escape : Escape) : Except Fault Table := do
  let cell ← table.cell column row
  .ok { table with
    rows := table.rows.modify row fun cells =>
      cells.set column { cell with escape := escape.render } }

def useEscapes (table : Table) (enable : Bool) : Table := { table with escapes := enable }

/-- Narrows a column to a limit. -/
def limitWidth (table : Table) (column limit : Nat) : Except Fault Table :=
  match table.widths[column]? with
  | some width => .ok { table with widths := table.widths.set column (min width (max limit 3)) }
  | none => .error .outOfRange

/-- The greatest width that texts are padded to. -/
def maxPadding : Nat := 1000000

/-- What stands in front of a text that cannot be padded. -/
def widthRefused : String := "%!(BADWIDTH)"

def pad (width : Nat) (cs : List Char) : List Char :=
  if width ≤ maxPadding then cs ++ List.replicate (width - cs.length) ' ' else widthRefused.toList ++ cs

/-- A text in a column: padded, or cut and marked if it is too long. -/
def fit (width : Nat) (text : String) : Except Fault (List Char) :=
  let cs := text.toList
  if cs.length ≤ width then .ok (pad width cs)
  else if width < 2 then .error .outOfRange
  else .ok (cs.take (width - 2) ++ ['.', '.'])

def renderCell (escapes : Bool) (width : Nat) (cell : Cell) : Except Fault String := do
  let body ← fit width cell.text
  let body := " " ++ String.ofList body
  .ok ((if escapes && cell.escape != "" then cell.escape ++ body ++ Escape.reset.render else body) ++
    " |")

def renderRow (escapes : Bool) (widths : List Nat) (cells : List Cell) : Except Fault String := do
  let parts ← (widths.zip cells).mapM fun part => renderCell escapes part.1 part.2
  .ok (String.join parts ++ "\n")

def render (table : Table) : Except Fault String := do
  let rows ← table.rows.mapM (renderRow table.escapes table.widths)
  .ok (String.join rows)

end Table
end TileSelect.Terminal
