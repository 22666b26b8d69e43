/-
# Files

What a path leads to in a folder that holds some files and no folders. A path goes up with `..`
to a folder of which nothing is known, and a path from the root starts there.
-/

namespace Generics

/-- Why the contents of a file cannot be had. -/
inductive FileProblem
  | missing
  /-- The path goes on behind a file. -/
  | notFolder
  | longName
  | badName
  /-- There is a folder at the path. -/
  | isFolder
deriving DecidableEq, Repr

/-- The wording of the problem. -/
def FileProblem.message : FileProblem → String
  | .missing => "no such file or directory"
  | .notFolder => "not a directory"
  | .longName => "file name too long"
  | .badName => "invalid argument"
  | .isFolder => "is a directory"

/-- The most bytes of a name. -/
def maxNameSize : Nat := 255

/-- The most bytes of a path. -/
def maxPathSize : Nat := 4095

/-- A folder: its files by name, with their contents. -/
structure Folder where
  files : List (String × String) := []

namespace Folder

/-- Where a path has led so far. -/
inductive Place
  | here
  | elsewhere
  | file (contents : String)

/-- Follows the names of a path. -/
def walk (f : Folder) : Place → List String → Except FileProblem String
  | .file contents, [] => .ok contents
  | _, [] => .error .isFolder
  | .file _, _ :: _ => .error .notFolder
  | place, name :: names =>
    if name = "" || name = "." then f.walk place names
    else if name = ".." then f.walk .elsewhere names
    else if maxNameSize < name.utf8ByteSize then .error .longName
    else match place, f.files.find? fun (n, _) => n == name with
      | .here, some (_, contents) => f.walk (.file contents) names
      | _, _ => .error .missing

/-- The contents of the file at a path. -/
def contents (f : Folder) (path : String) : Except FileProblem String :=
  if path.toList.contains (Char.ofNat 0) then .error .badName
  else if maxPathSize < path.utf8ByteSize then .error .longName
  else f.walk (if path.startsWith "/" then .elsewhere else .here) (path.splitOn "/")

end Folder

end Generics
