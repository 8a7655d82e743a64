/-! # White space

The characters with the Unicode property `White_Space`: the six ASCII blanks, next line, the no-break space
and the separators. -/
namespace TileSelect.Text

/-- The code points of white space, as closed ranges in increasing order. -/
def blankRanges : List (Nat × Nat) :=
  [(0x09, 0x0D), (0x20, 0x20), (0x85, 0x85), (0xA0, 0xA0), (0x1680, 0x1680), (0x2000, 0x200A),
   (0x2028, 0x2029), (0x202F, 0x202F), (0x205F, 0x205F), (0x3000, 0x3000)]

def isBlank (c : Char) : Bool :=
  blankRanges.any fun r => r.1 ≤ c.toNat && c.toNat ≤ r.2

example : isBlank ' ' = true ∧ isBlank '\n' = true ∧ isBlank '\u3000' = true := by decide

example : isBlank 'a' = false ∧ isBlank '\u200B' = false ∧ isBlank '(' = false := by decide

end TileSelect.Text
