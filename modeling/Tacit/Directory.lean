/-!
A directory with files in it, and the paths that lead to them. A path is walked name by name: an
empty name and a single dot stay where they are, two dots go one directory up, and every step
needs a directory to start from.
-/

namespace Tacit

/-- Files with the names of the directories on the way to them, outermost first, and their own
name last. -/
structure Directory where
  files : List (List String × ByteArray)

namespace Directory

def ofPaths (files : List (String × ByteArray)) : Directory :=
  ⟨files.map fun (path, bytes) => (path.splitOn "/", bytes)⟩

/-- Whether there is a directory at a place: the directory itself, or one on the way to a file. -/
def isDirectory (d : Directory) (place : List String) : Bool :=
  place.isEmpty || d.files.any fun (file, _) => place.isPrefixOf file && place != file

/-- The place that the names of a path lead to. What lies above the directory is not known. -/
def walk (d : Directory) (place : List String) : List String → Option (List String)
  | [] => some place
  | name :: rest =>
    if d.isDirectory place then
      if name = "" ∨ name = "." then d.walk place rest
      else if name = ".." then
        if place.isEmpty then none else d.walk place.dropLast rest
      else d.walk (place ++ [name]) rest
    else none

/-- The bytes of the file that a path leads to. A path from the root of all directories leads to
none. -/
def read? (d : Directory) (path : String) : Option ByteArray :=
  if path.startsWith "/" then none
  else (d.walk [] (path.splitOn "/")).bind fun place => d.files.lookup place

end Directory

end Tacit
