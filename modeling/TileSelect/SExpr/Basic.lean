/-! # S-expressions

An s-expression is a symbol or a list of s-expressions.  Each one carries a mark; the reader marks it with the
span it was read from, and marks do not show when it is printed.  Printing writes symbols as they are, so it
can be read back only if no symbol is empty or holds a blank, a parenthesis or a semicolon. -/
namespace TileSelect

/-- A symbol or a list, marked with a value of `μ`. -/
inductive SExpr (μ : Type) where
  | symbol (mark : μ) (text : String)
  | list (mark : μ) (items : List (SExpr μ))

namespace SExpr

variable {μ : Type}

def mark : SExpr μ → μ
  | symbol m _ => m
  | list m _ => m

def symbol? : SExpr μ → Option String
  | symbol _ text => some text
  | list _ _ => none

def items? : SExpr μ → Option (List (SExpr μ))
  | symbol _ _ => none
  | list _ items => some items

mutual

/-- The characters of a term: items between parentheses, one space apart. -/
def chars : SExpr μ → List Char
  | symbol _ text => text.toList
  | list _ items => '(' :: itemChars items ++ [')']

def itemChars : List (SExpr μ) → List Char
  | [] => []
  | [item] => item.chars
  | item :: next :: items => item.chars ++ ' ' :: itemChars (next :: items)

end

def render (term : SExpr μ) : String := String.ofList term.chars

/-- Do the first items of a list, which has at least `n` of them, spell the given symbols?  More symbols than
`n` are never spelt. -/
def spells (items : List (SExpr μ)) (n : Int) (symbols : List String) : Bool :=
  n ≤ items.length && symbols.length ≤ n &&
    (items.take symbols.length).map symbol? == symbols.map some

end SExpr
end TileSelect
