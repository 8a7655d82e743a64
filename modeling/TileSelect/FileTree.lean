import TileSelect.Catalog.File
import TileSelect.Text.Split

/-! # File trees

Files kept in memory under slash-separated paths.  A directory exists if some file is below it.  A path is
followed part by part: empty parts and `.` stay where they are and `..` goes up, as far as the top. -/
namespace TileSelect

/-- Files by path; of two with the same path the later counts. -/
structure FileTree where
  files : List (String × List UInt8)

namespace FileTree

def parts (path : String) : List String := (Text.splitAt '/' path.toList).map String.ofList

def key (path : String) : List String := (parts path).filter fun part => part != "" && part != "."

def file? (tree : FileTree) (key : List String) : Option (List UInt8) :=
  tree.files.reverse.findSome? fun f => if FileTree.key f.1 == key then some f.2 else none

def isDirectory (tree : FileTree) (key : List String) : Bool :=
  key.isEmpty || tree.files.any fun f =>
    key.isPrefixOf (FileTree.key f.1) && key.length < (FileTree.key f.1).length

/-- Follows a path from a place in the tree. -/
def follow (tree : FileTree) : List String → List String → Except AccessError (List String)
  | place, [] => .ok place
  | place, part :: rest =>
    if !tree.isDirectory place then .error .notDirectory
    else if part = "" ∨ part = "." then follow tree place rest
    else if part = ".." then follow tree place.dropLast rest
    else
      let next := place ++ [part]
      if tree.isDirectory next || (tree.file? next).isSome then follow tree next rest
      else .error .missing

def access (tree : FileTree) : FileAccess := fun path =>
  if path.isEmpty then .error .missing
  else do
    let place ← tree.follow [] (parts path)
    if tree.isDirectory place then .error .directory
    else
      match tree.file? place with
      | some bytes => .ok bytes
      | none => .error .missing

end FileTree
end TileSelect
