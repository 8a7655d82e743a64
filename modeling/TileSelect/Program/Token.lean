import TileSelect.Lexer
import TileSelect.Source.File

/-! # Tokens of programs

A program text is made of identifiers, equals signs and commas, with blanks and comments between them.  A
comment runs from a semicolon to the end of its line. -/
namespace TileSelect.Program

inductive TokenKind where
  | endOfFile
  | whitespace
  | comment
  | equals
  | comma
  | identifier
  deriving DecidableEq, Repr

namespace TokenKind

def code : TokenKind → Nat
  | endOfFile => 0
  | whitespace => 1
  | comment => 2
  | equals => 3
  | comma => 4
  | identifier => 5

/-- Blanks and comments, which mean nothing. -/
def isTrivia : TokenKind → Bool
  | whitespace | comment => true
  | _ => false

end TokenKind

def character (c : Char) : Scanner Char := .unit [c]

def whitespaceScanner : Scanner Char :=
  .many (.either [character ' ', character '\t', character '\r', character '\n'])

def identifierStart : Scanner Char :=
  .either [character '_', .within 'a' 'z', .within 'A' 'Z']

def identifierRest : Scanner Char :=
  .many (.either [character '_', character '\'', .within '0' '9', .within 'a' 'z', .within 'A' 'Z'])

def identifierScanner : Scanner Char := .every [identifierStart, identifierRest]

/-- A comment, without the newline after it. -/
def commentScanner : Scanner Char := .every [character ';', .upTo '\n']

/-- The rules of program texts, in the order they are tried. -/
def tokenRules : List (Rule Char TokenKind) :=
  [⟨commentScanner, .comment⟩, ⟨character '=', .equals⟩, ⟨character ',', .comma⟩,
   ⟨whitespaceScanner, .whitespace⟩, ⟨identifierScanner, .identifier⟩, ⟨.endOfText, .endOfFile⟩]

def lexer (cs : List Char) : Lexer Char TokenKind := { text := cs, rules := tokenRules }

/-- A token with its characters. -/
structure Word where
  kind : TokenKind
  span : Span
  text : String
  deriving DecidableEq

def Word.ofToken (file : File) (token : Token TokenKind) : Except Fault Word := do
  let span ← Span.make token.start token.stop
  let text ← file.text span
  .ok ⟨token.kind, span, String.ofList text⟩

end TileSelect.Program
