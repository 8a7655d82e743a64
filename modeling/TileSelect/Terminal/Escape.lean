/-! # Terminal escapes

An escape sequence sets one or more attributes of what is printed next.  Attribute codes are 64-bit words and
colours are counted from thirty for the foreground and from forty for the background. -/
namespace TileSelect.Terminal

structure Escape where
  codes : List UInt64
  deriving DecidableEq

namespace Escape

def plain : Escape := ⟨[]⟩

def reset : Escape := ⟨[0]⟩

def bold : Escape := ⟨[1]⟩

def foreground (escape : Escape) (colour : UInt64) : Escape := ⟨escape.codes ++ [colour + 30]⟩

def background (escape : Escape) (colour : UInt64) : Escape := ⟨escape.codes ++ [colour + 40]⟩

/-- The characters that are sent: codes between semicolons, after a bracket if there are any. -/
def render (escape : Escape) : String :=
  "\x1b" ++ (if escape.codes.isEmpty then "" else "[") ++
    ";".intercalate (escape.codes.map toString) ++ "m"

end Escape

def green : UInt64 := 2

def yellow : UInt64 := 3

def cyan : UInt64 := 6

end TileSelect.Terminal
