import TileSelect.Catalog.Document
import TileSelect.Text.Utf8

/-! # Catalog files

A catalog file is read first, and how its text is understood depends on the ending of its name: `.lisp` for
declarations, `.json`, and `.yaml` or `.yml` for structured documents. -/
namespace TileSelect

inductive AccessError where
  | missing
  | directory
  /-- A part of the path that should be a directory is a file. -/
  | notDirectory
  deriving DecidableEq

def AccessError.message (error : AccessError) (path : String) : String :=
  match error with
  | .missing => "open " ++ path ++ ": no such file or directory"
  | .directory => "read " ++ path ++ ": is a directory"
  | .notDirectory => "open " ++ path ++ ": not a directory"

/-- How a file is read: its bytes, by its path. -/
abbrev FileAccess := String → Except AccessError (List UInt8)

def FileAccess.open (files : FileAccess) (path : String) : Except AccessError File :=
  (files path).map fun bytes => ⟨path, Text.decode bytes⟩

namespace Catalog

/-- The ending of a path: from the last dot of its last part on, or nothing. -/
def extension (path : String) : String :=
  let last := (path.toList.reverse.takeWhile (· != '/'))
  if last.contains '.' then String.ofList ('.' :: (last.takeWhile (· != '.')).reverse) else ""

inductive FileError where
  | access (path : String) (error : AccessError)
  | syntaxErrors (errors : List SyntaxError)
  | document (error : DocumentError)
  | unknownFormat (extension : String)

def ofFile (files : FileAccess) (path : String) : Except FileError Catalog := do
  let file ← (files.open path).mapError (.access path)
  let ending := extension path
  if ending = ".lisp" then (ofDeclarations file).mapError .syntaxErrors
  else if ending = ".json" then (ofJson file.contents).mapError .document
  else if ending = ".yaml" ∨ ending = ".yml" then (ofYaml (Text.encode file.contents)).mapError .document
  else .error (.unknownFormat ending)

def unknownFormatMessage (ending : String) : String := "unknown catalog format \"" ++ ending ++ "\""

end Catalog
end TileSelect
