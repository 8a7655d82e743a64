import TileSelect.Yaml.Cursor

/-! # Blanks and comments

What may stand between two tokens, apart from the line breaks.  After a comment the next one is looked for within
`commentReach` characters, over blanks, tabs included, and over newlines and carriage returns. -/
namespace TileSelect.Yaml.Cursor

/-- How many characters ahead a comment is looked for. -/
def commentReach : Nat := 512

/-- Skips spaces, and tabs where they count as blanks. -/
def skipBlanks (tabs : Bool) (c : Cursor) : Option Cursor :=
  c.pass (c.rest.takeWhile fun x => x == ' ' || (tabs && x == '\t')).length

/-- Skips the comment that starts some characters ahead, up to the end of its line. -/
def skipComment (c : Cursor) (distance : Nat) : Option Cursor :=
  let length := ((c.rest.drop distance).takeWhile fun x => !isBreak x).length
  (c.look 1).bind fun c =>
    (c.follow (layoutSteps true (c.rest.take distance))).bind (·.pass length)

def commentAt (c : Cursor) (distance : Nat) : Bool :=
  distance < commentReach && (c.rest.drop distance).head? == some '#'

def skipLineComment (c : Cursor) : Option Cursor :=
  let blanks := (c.rest.takeWhile isBlank).length
  (c.lookOn (min commentReach (blanks + 1))).bind fun c =>
    if c.commentAt blanks then c.skipComment blanks else some c

/-- How many characters are looked at, one by one, from the end of a comment on, if what follows does so after some
characters.  A line break of several bytes is gone into. -/
def aheadOfComment (c : Cursor) (distance : Nat) : Nat :=
  let ahead := if (c.rest.drop distance).head?.any isBreak then distance + 2 else distance + 1
  min commentReach (max 2 ahead)

/-- Skips the comments that follow one, from the end of its line on; each takes one of `fuel`. -/
def skipMoreComments : Nat → Cursor → Option Cursor
  | 0, c => some c
  | fuel + 1, c =>
    let distance := (c.rest.takeWhile fun x => isBlank x || isReturn x).length
    (c.lookOn (c.aheadOfComment distance)).bind fun c =>
      if c.commentAt distance then (c.skipComment distance).bind (skipMoreComments fuel)
      else some c

/-- Skips a comment that starts here, and those that follow it. -/
def skipComments (fuel : Nat) (c : Cursor) : Option Cursor :=
  (c.skipComment 0).bind (skipMoreComments fuel)

end TileSelect.Yaml.Cursor
