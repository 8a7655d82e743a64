/-! # Flags and subcommands

The words of a command line are a subcommand, flags and positional arguments, in any order.  A switch may be
given a truth value with `=`; a flag with a text takes it after `=` or from the next word.  A double dash ends the
flags.  The subcommand is the first word that is neither a flag nor the text of one; a flag that is not known
before the subcommand is taken to have a text, unless at most one word is left for it. -/
namespace TileSelect.CommandLine

/-- A flag: its name, the letter it is known by and whether it has a text. -/
structure Flag where
  name : String
  letter : Option Char := none
  hasText : Bool := false
  deriving DecidableEq

inductive Value where
  | switch (on : Bool)
  | text (text : String)
  deriving DecidableEq

/-- Flags that were set, in order, and positional arguments. -/
structure Arguments where
  settings : List (String × Value) := []
  positional : List String := []

namespace Arguments

/-- The last setting of a flag. -/
def value? (args : Arguments) (name : String) : Option Value := args.settings.reverse.lookup name

def isOn (args : Arguments) (name : String) : Bool := args.value? name == some (.switch true)

/-- The text of a flag, empty if there is none. -/
def text (args : Arguments) (name : String) : String :=
  match args.value? name with
  | some (.text text) => text
  | _ => ""

def withSettings (args : Arguments) (settings : List (String × Value)) : Arguments :=
  { args with settings := settings ++ args.settings }

def withPositional (args : Arguments) (word : String) : Arguments :=
  { args with positional := word :: args.positional }

end Arguments

def truth? (text : List Char) : Option Bool :=
  let text := String.ofList text
  if ["1", "t", "T", "true", "TRUE", "True"].contains text then some true
  else if ["0", "f", "F", "false", "FALSE", "False"].contains text then some false
  else none

/-- What a flag is set to by a text after `=`. -/
def Flag.valueOf (flag : Flag) (text : List Char) : Option Value :=
  if flag.hasText then some (.text (String.ofList text)) else (truth? text).map .switch

def named? (flags : List Flag) (name : List Char) : Option Flag :=
  flags.find? fun flag => flag.name.toList == name

def lettered? (flags : List Flag) (letter : Char) : Option Flag :=
  flags.find? fun flag => flag.letter == some letter

/-- Letters that start with this word are meant for a test runner and are passed over. -/
def testWord : List Char := ['t', 'e', 's', 't', '.']

/-- The settings of letters after a single dash; the last may have a truth value. -/
def readLetters (flags : List Flag) : List Char → Option (List (String × Value))
  | [] => some []
  | c :: rest =>
    if testWord.isPrefixOf (c :: rest) then some []
    else do
      let flag ← lettered? flags c
      match rest with
      | '=' :: d :: text => do
        let value ← flag.valueOf (d :: text)
        some [(flag.name, value)]
      | _ => do
        let settings ← readLetters flags rest
        some ((flag.name, .switch true) :: settings)

/-- Reads words after the subcommand; nothing if one of them cannot be understood. -/
def readWords (flags : List Flag) : List String → Option Arguments
  | [] => some {}
  | word :: words =>
    match word.toList with
    | ['-', '-'] => some { positional := words }
    | '-' :: '-' :: body =>
      match named? flags (body.takeWhile (· != '=')) with
      | none => none
      | some flag =>
        match body.dropWhile (· != '=') with
        | _ :: text => do
          let value ← flag.valueOf text
          let rest ← readWords flags words
          some (rest.withSettings [(flag.name, value)])
        | [] =>
          if flag.hasText then
            match words with
            | [] => none
            | text :: words => do
              let rest ← readWords flags words
              some (rest.withSettings [(flag.name, .text text)])
          else do
            let rest ← readWords flags words
            some (rest.withSettings [(flag.name, .switch true)])
    | '-' :: c :: letters => do
      let settings ← readLetters flags (c :: letters)
      let rest ← readWords flags words
      some (rest.withSettings settings)
    | _ => do
      let rest ← readWords flags words
      some (rest.withPositional word)

/-- Does a flag take the next word, as far as is known before the subcommand? -/
def takesNext (flags : List Flag) (word : List Char) : Bool :=
  if word.contains '=' then false
  else
    match word with
    | '-' :: '-' :: name => !(flags.any fun flag => flag.name.toList == name && !flag.hasText)
    | ['-', c] => c.toNat < 0x80 && !(flags.any fun flag => flag.letter == some c && !flag.hasText)
    | _ => false

def isFlag (word : List Char) : Bool := word.head? == some '-'

def plainWords (flags : List Flag) : List String → List String
  | [] => []
  | word :: words =>
    if word = "--" then []
    else if takesNext flags word.toList then
      match words with
      | _ :: next :: words => plainWords flags (next :: words)
      | _ => []
    else if word ≠ "" ∧ !isFlag word.toList then word :: plainWords flags words
    else plainWords flags words

/-- The words without the first plain word, which is the given one. -/
def dropPlainWord (flags : List Flag) (plain : String) : List String → List String
  | [] => []
  | word :: words =>
    if word = "--" then word :: words
    else if takesNext flags word.toList then
      match words with
      | [] => [word]
      | text :: words => word :: text :: dropPlainWord flags plain words
    else if word = plain then words
    else word :: dropPlainWord flags plain words

end TileSelect.CommandLine
