import TileSelect.Catalog.File
import TileSelect.CommandLine.Help
import TileSelect.Diagnosis
import TileSelect.Report

/-! # Running a command

A run takes the words of a command line and a way to read files to what is printed and an exit code.  The codes
are one for a command line that cannot be understood or a catalog with gaps, two for a bad catalog or root,
three for an unreadable program, four for syntax errors and five for a program that cannot be built or
selected for. -/
namespace TileSelect.CommandLine

structure Outcome where
  exitCode : Nat
  output : String
  deriving DecidableEq

inductive Stop where
  | exit (outcome : Outcome)
  | fault (fault : Fault)

def stop {α : Type} (exitCode : Nat) (output : String) : Except Stop α :=
  .error (.exit ⟨exitCode, output⟩)

/-- A library operation as a step of a run. -/
def orStop {α : Type} (result : Except Fault α) : Except Stop α := result.mapError .fault

/-- A subcommand and the words to read its flags from. -/
def findCommand (words : List String) : Option (Command × List String) :=
  let known := Command.root.ownFlags ++ Command.sharedFlags
  match plainWords known words with
  | [] => some (.root, words)
  | word :: _ => (Command.ofName? word).map fun command => (command, dropPlainWord known word words)

def readCommand (words : List String) : Option (Command × Arguments) := do
  let (command, words) ← findCommand words
  let args ← readWords command.flags words
  some (command, args)

def reports (errors : List SyntaxError) : String := String.join (errors.map SyntaxError.report)

/-- Reads the catalog that the arguments name, or takes the standard one. -/
def chosenCatalog (files : FileAccess) (args : Arguments) : Except Stop Catalog :=
  let path := args.text "catalog"
  if path = "" then .ok Catalog.standard
  else
    match Catalog.ofFile files path with
    | .ok catalog => .ok catalog
    | .error (.access path error) => stop 2 (error.message path ++ "\n")
    | .error (.syntaxErrors errors) => stop 4 (reports errors)
    | .error (.document .brokenOff) => stop 2 ""
    | .error (.document error) => stop 2 (error.message ++ "\n")
    | .error (.unknownFormat ending) => stop 2 (Catalog.unknownFormatMessage ending ++ "\n")

def openProgram (files : FileAccess) (path : String) : Except Stop Program.Parsed :=
  match files.open path with
  | .error error => stop 3 (error.message path ++ "\n")
  | .ok file => do
    let parsed ← orStop (Program.parse file)
    match parsed.syntaxError? with
    | some error => stop 4 error.report
    | none => .ok parsed

/-- Ends a run for an error of building or selecting, shown in its place if it has one. -/
def stopFor {α : Type} (parsed : Program.Parsed) (error : CoreError) : Except Stop α :=
  match error.fault? with
  | some fault => .error (.fault fault)
  | none =>
    match error.locate? parsed.program parsed.spans with
    | some located => stop 5 located.report
    | none => stop 5 (error.message ++ "\n")

/-- The node to select from: the one that the arguments name, or the root of the graph. -/
def findRoot (args : Arguments) (g : Graph) : Except Stop NodeId :=
  let name := args.text "root"
  if name ≠ "" then
    match g.lookup name with
    | some id => .ok id
    | none => stop 2 ("unknown root \"" ++ name ++ "\"\n")
  else
    match g.root with
    | some id => .ok id
    | none => stop 5 (noValues ++ "\n")

def selection (files : FileAccess) (args : Arguments) (path : String) : Except Stop Selection := do
  let parsed ← openProgram files path
  let options : BuildOptions := ⟨args.isOn "strict", args.isOn "reuse"⟩
  match Graph.build parsed.program options with
  | .error error => stopFor parsed (.build error)
  | .ok g => do
    let root ← findRoot args g
    let catalog ← chosenCatalog files args
    match Selection.select g root catalog with
    | .error error => stopFor parsed (.select error)
    | .ok selection => .ok selection

def checkCatalog (files : FileAccess) (args : Arguments) : Except Stop Outcome := do
  let catalog ← chosenCatalog files args
  let printed ← orStop (Report.catalog catalog (args.isOn "ansi"))
  if catalog.missing.isEmpty then
    .ok ⟨0, printed ++ toString catalog.size ++ " tiles, all opcodes covered\n"⟩
  else
    .ok ⟨1, printed ++
      String.join (catalog.missing.map fun op => "opcode " ++ op.mnemonic ++ " not covered\n")⟩

def runCommand (files : FileAccess) (command : Command) (args : Arguments) : Except Stop Outcome :=
  if args.isOn "help" then .ok ⟨0, command.help⟩
  else if command.arity?.any (· != args.positional.length) then .ok ⟨1, ""⟩
  else
    match command with
    | .root =>
      .ok ⟨0, if args.isOn "version" then versionLine "" "" ++ "\n" else command.help⟩
    | .check => checkCatalog files args
    | .select => do
      let selection ← selection files args (args.positional.headD "")
      let ansi := args.isOn "ansi"
      let printed ← orStop (if args.isOn "cover" then Report.cover selection ansi
        else Report.annotations selection ansi)
      .ok ⟨0, printed⟩
    | .dot => do
      let selection ← selection files args (args.positional.headD "")
      let printed ← orStop (Report.dot selection)
      .ok ⟨0, printed⟩

def run (files : FileAccess) (words : List String) : Except Fault Outcome :=
  match readCommand words with
  | none => .ok ⟨1, ""⟩
  | some (command, args) =>
    match runCommand files command args with
    | .ok outcome => .ok outcome
    | .error (.exit outcome) => .ok outcome
    | .error (.fault fault) => .error fault

/-- The files that a command line may have to read. -/
def paths (words : List String) : List String :=
  match readCommand words with
  | none => []
  | some (_, args) => args.positional ++ [args.text "catalog"]

end TileSelect.CommandLine
