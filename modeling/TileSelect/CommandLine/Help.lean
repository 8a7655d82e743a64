import TileSelect.CommandLine.Flags

/-! # The commands and what they say about themselves -/
namespace TileSelect.CommandLine

inductive Command where
  /-- No subcommand. -/
  | root
  | select
  | dot
  | check
  deriving DecidableEq

namespace Command

def ofName? (name : String) : Option Command :=
  if name = "select" then some select
  else if name = "dot" then some dot
  else if name = "check" then some check
  else none

/-- The flags that every command has, help apart. -/
def sharedFlags : List Flag := [{ name := "ansi" }, { name := "verbose", letter := some 'v' }]

def helpFlag : Flag := { name := "help", letter := some 'h' }

def programFlags : List Flag :=
  [{ name := "catalog", hasText := true }, { name := "root", hasText := true }, { name := "strict" },
   { name := "reuse" }]

def ownFlags : Command → List Flag
  | root => [{ name := "version" }]
  | select => programFlags ++ [{ name := "cover" }]
  | dot => programFlags
  | check => [{ name := "catalog", hasText := true }]

def flags (command : Command) : List Flag := command.ownFlags ++ sharedFlags ++ [helpFlag]

/-- The number of positional arguments, if it matters. -/
def arity? : Command → Option Nat
  | root => none
  | select => some 1
  | dot => some 1
  | check => some 0

def sharedHelp : String :=
  "Global Flags:\n" ++
  "      --ansi      use ANSI escapes when printing\n" ++
  "  -v, --verbose   increase logging verbosity\n"

def catalogHelp : String :=
  "      --catalog string   read tiles from a catalog file (.lisp, .json or .yaml)\n"

def programHelp : String :=
  "      --reuse            permit identical redefinitions of a value\n" ++
  "      --root string      select from a given value, rather than the last defined\n" ++
  "      --strict           only permit declared inputs as leaves\n"

def help : Command → String
  | root =>
    "Select minimum-cost tiles for three-address programs, targeting generic, LUT and DSP resources.\n" ++
    "\n" ++
    "Usage:\n" ++
    "  isel [flags]\n" ++
    "  isel [command]\n" ++
    "\n" ++
    "Available Commands:\n" ++
    "  check       check a tile catalog covers every opcode.\n" ++
    "  completion  Generate the autocompletion script for the specified shell\n" ++
    "  dot         print the selected value graph in Graphviz format.\n" ++
    "  help        Help about any command\n" ++
    "  select      select tiles for a program.\n" ++
    "\n" ++
    "Flags:\n" ++
    "      --ansi      use ANSI escapes when printing\n" ++
    "  -h, --help      help for isel\n" ++
    "  -v, --verbose   increase logging verbosity\n" ++
    "      --version   report the version of this executable\n" ++
    "\n" ++
    "Use \"isel [command] --help\" for more information about a command.\n"
  | select =>
    "Build the value graph of a given program, and select a minimum-cost tile for each value\n" ++
    "reachable from the root.  By default, the root is the last value defined.\n" ++
    "\n" ++
    "Usage:\n" ++
    "  isel select [flags] program.ir\n" ++
    "\n" ++
    "Flags:\n" ++
    catalogHelp ++
    "      --cover            print the selected tile instances, rather than per-value annotations\n" ++
    "  -h, --help             help for select\n" ++
    programHelp ++
    "\n" ++ sharedHelp
  | check =>
    "Check that every opcode can be covered by some tile of a given catalog, independently of its operands.\n" ++
    "Selection may fail on programs using an opcode which is not covered.\n" ++
    "\n" ++
    "Usage:\n" ++
    "  isel check [flags]\n" ++
    "\n" ++
    "Flags:\n" ++
    catalogHelp ++
    "  -h, --help             help for check\n" ++
    "\n" ++ sharedHelp
  | dot =>
    "Build the value graph of a given program, select tiles and print the result in Graphviz DOT\n" ++
    "format.  Edges run from each value to its operands.\n" ++
    "\n" ++
    "Usage:\n" ++
    "  isel dot [flags] program.ir\n" ++
    "\n" ++
    "Flags:\n" ++
    catalogHelp ++
    "  -h, --help             help for dot\n" ++
    programHelp ++
    "\n" ++ sharedHelp

end Command

/-- The version line, from the version given when the program was put together or else the one recorded for
its sources, unless that is only a mark of development. -/
def versionLine (given recorded : String) : String :=
  if given ≠ "" then "isel " ++ given
  else if recorded ≠ "" ∧ recorded ≠ "(devel)" then "isel " ++ recorded
  else "isel (unknown version)"

end TileSelect.CommandLine
