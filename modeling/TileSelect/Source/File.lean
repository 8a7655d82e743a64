import TileSelect.Source.Span

/-! # Source files and their lines

A source file is a name and a text.  Its lines are cut at newlines, which belong to no line's text; what
follows the last newline is a line only if it is not empty.  The line around a position is found by a scan
of its own: a newline belongs to the line it ends, and a position outside the text gives what follows the
last newline, empty or not. -/
namespace TileSelect

/-- A line of a text: its number from one, the position of its first character and its characters. -/
structure Line where
  number : Nat
  start : Nat
  text : List Char
  deriving DecidableEq, Repr

def Line.length (line : Line) : Nat := line.text.length

structure File where
  name : String
  contents : List Char
  deriving DecidableEq

namespace File

def inLine (c : Char) : Bool := c != '\n'

private theorem length_tail_dropWhile_lt {cs : List Char} {c : Char} {rest : List Char}
    (h : cs.dropWhile inLine = c :: rest) : rest.length < cs.length := by
  have := (List.dropWhile_suffix (l := cs) inLine).length_le
  rw [h] at this
  simp at this
  omega

/-- The lines of a text whose first line has the given number and start. -/
def linesFrom (number start : Nat) (cs : List Char) : List Line :=
  let text := cs.takeWhile inLine
  match h : cs.dropWhile inLine with
  | [] => if text.isEmpty then [] else [⟨number, start, text⟩]
  | _ :: rest => ⟨number, start, text⟩ :: linesFrom (number + 1) (start + text.length + 1) rest
termination_by cs.length
decreasing_by exact length_tail_dropWhile_lt h

def lines (file : File) : List Line := linesFrom 1 0 file.contents

/-- The line around a position, in a text whose first line has the given number and start. -/
def lineAroundFrom (position : Int) (number start : Nat) (cs : List Char) : Line :=
  let text := cs.takeWhile inLine
  match h : cs.dropWhile inLine with
  | [] => ⟨number, start, text⟩
  | _ :: rest =>
    if (start : Int) ≤ position ∧ position ≤ (start + text.length : Nat) then ⟨number, start, text⟩
    else lineAroundFrom position (number + 1) (start + text.length + 1) rest
termination_by cs.length
decreasing_by exact length_tail_dropWhile_lt h

/-- The line around the start of a span. -/
def lineAround (file : File) (span : Span) : Line :=
  lineAroundFrom span.start 1 0 file.contents

def text (file : File) (span : Span) : Except Fault (List Char) :=
  if 0 ≤ span.start ∧ span.start ≤ span.stop ∧ span.stop ≤ (file.contents.length : Int) then
    .ok ((file.contents.drop span.start.toNat).take span.length.toNat)
  else .error .outOfRange

theorem text_between {file : File} (before text after : List Char)
    (h : file.contents = before ++ text ++ after) :
    file.text (Span.between before.length (before.length + text.length)) = .ok text := by
  simp only [File.text, Span.between, Span.length, h, List.length_append]
  have hlength : (((before.length + text.length : Nat) : Int) - before.length).toNat = text.length := by
    omega
  rw [if_pos (by omega), hlength]
  simp

end File
end TileSelect
