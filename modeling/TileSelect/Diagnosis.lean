import TileSelect.Graph.Builder
import TileSelect.Program.Parser
import TileSelect.Selection.Basic

/-! # Errors in their place

An error of building or selecting is located at an instruction of the program text: the instruction it speaks
of, or the one that defines the node without a cover.  Errors about inputs have no place.  `selectFile` takes a
program text all the way to a selection and reports every error as a syntax error, those without a place at
the start of the file. -/
namespace TileSelect

def atStart (file : File) (message : String) : SyntaxError := ⟨file, Span.point 0, message⟩

inductive CoreError where
  | build (error : BuildError)
  | select (error : SelectError)
  deriving DecidableEq

namespace CoreError

def message : CoreError → String
  | build error => error.message
  | select error => error.message

/-- The instruction an error is about. -/
def index? (program : Program) : CoreError → Option Nat
  | build error => error.index?
  | select (.noCover name _) => program.definition? name
  | select (.fault _) => none

def locate? (error : CoreError) (program : Program) (spans : SpanMap Nat) : Option SyntaxError :=
  (error.index? program).bind fun index => spans.syntaxError? index error.message

/-- The error in its place, or at the start of the file.  An error about no instruction is looked up past the
last one. -/
def inFile (error : CoreError) (file : File) (program : Program) (spans : SpanMap Nat) : SyntaxError :=
  let index := (error.index? program).getD program.instructions.length
  (spans.syntaxError? index error.message).getD (atStart file error.message)

def fault? : CoreError → Option Fault
  | build (.fault f) => some f
  | select (.fault f) => some f
  | _ => none

end CoreError

def noValues : String := "program defines no values"

/-- Builds the graph of a program and selects tiles below its root, if it has one. -/
def selectBuilt (program : Program) (options : BuildOptions) (catalog : Catalog) :
    Except CoreError (Option Selection) := do
  let g ← (Graph.build program options).mapError .build
  match g.root with
  | none => .ok none
  | some root => (Selection.select g root catalog).mapError .select |>.map some

/-- Selects tiles for a program text; every error is a syntax error of the text. -/
def selectFile (file : File) (catalog : Catalog) (options : BuildOptions) :
    Except Fault (Except SyntaxError Selection) := do
  let parsed ← Program.parse file
  match parsed.syntaxError? with
  | some error => .ok (.error error)
  | none =>
    match selectBuilt parsed.program options catalog with
    | .error error =>
      match error.fault? with
      | some fault => .error fault
      | none => .ok (.error (error.inFile file parsed.program parsed.spans))
    | .ok none => .ok (.error (atStart file noValues))
    | .ok (some selection) => .ok (.ok selection)

end TileSelect
