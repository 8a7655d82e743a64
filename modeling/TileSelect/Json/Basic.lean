import TileSelect.Text.Quoted

/-! # JSON values

A JSON value, with numbers kept as they are written.  Values are written over several lines, two spaces deeper
for each level; strings escape what would not be safe inside a web page as well. -/
namespace TileSelect

inductive Json where
  | null
  | bool (value : Bool)
  /-- A number, as it is written. -/
  | number (literal : List Char)
  | string (text : String)
  | array (items : List Json)
  | object (members : List (String × Json))

namespace Json

def stringChar (c : Char) : List Char :=
  let n := c.toNat
  if c = '"' then ['\\', '"']
  else if c = '\\' then ['\\', '\\']
  else if n = 8 then ['\\', 'b']
  else if n = 9 then ['\\', 't']
  else if n = 10 then ['\\', 'n']
  else if n = 12 then ['\\', 'f']
  else if n = 13 then ['\\', 'r']
  else if n < 0x20 ∨ c = '<' ∨ c = '>' ∨ c = '&' ∨ n = 0x2028 ∨ n = 0x2029 then
    '\\' :: 'u' :: Text.hexDigits 4 n
  else [c]

def quote (text : String) : List Char := '"' :: text.toList.flatMap stringChar ++ ['"']

def newline (depth : Nat) : List Char := '\n' :: List.replicate (2 * depth) ' '

mutual

/-- The characters of a value at a depth. -/
def chars (depth : Nat) : Json → List Char
  | null => "null".toList
  | bool true => "true".toList
  | bool false => "false".toList
  | number literal => literal
  | string text => quote text
  | array [] => "[]".toList
  | array (item :: items) =>
    '[' :: newline (depth + 1) ++ itemChars (depth + 1) (item :: items) ++ newline depth ++ [']']
  | object [] => "\x7b\x7d".toList
  | object (member :: members) =>
    '\x7b' :: newline (depth + 1) ++ memberChars (depth + 1) (member :: members) ++ newline depth ++
      ['\x7d']

def itemChars (depth : Nat) : List Json → List Char
  | [] => []
  | [item] => chars depth item
  | item :: next :: items =>
    chars depth item ++ ',' :: newline depth ++ itemChars depth (next :: items)

def memberChars (depth : Nat) : List (String × Json) → List Char
  | [] => []
  | [(key, value)] => quote key ++ ": ".toList ++ chars depth value
  | (key, value) :: next :: members =>
    quote key ++ ": ".toList ++ chars depth value ++ ',' :: newline depth ++
      memberChars depth (next :: members)

end

def render (value : Json) : String := String.ofList (value.chars 0)

end Json
end TileSelect
