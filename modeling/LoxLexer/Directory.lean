import LoxLexer.Script

/-!
# Directories

A directory whose files are given beforehand answers for the paths that lead to them. It takes the
place of the file system where command lines are tried on given files: only the files themselves are
known, so an absolute path, or one through `..`, leads to none. No statement about the program rests
on it.
-/

namespace LoxLexer

/-- A directory that holds files only, by name. -/
structure Directory where
  files : List (String × ByteArray)

namespace Directory

/-- The bytes of the file with a name. Of two files with one name the later replaced the other. -/
def file? (d : Directory) (name : String) : Option ByteArray :=
  d.files.reverse.lookup name

/-- Where a path has led so far: to the directory itself, to one above it, or to a file. -/
inductive Place where
  | here
  | above
  | file (bytes : ByteArray)

/-- The most bytes that a name may have. -/
def longestName : Nat := 255

/-- The most bytes that a path may have. -/
def longestPath : Nat := 4095

/-- Follows one component of a path. An empty one, as two slashes in a row make it, stays in a
directory; there is nothing below a file; and of what lies above only the directories are known. -/
def follow (d : Directory) (place : Place) (name : String) : Except ReadError Place :=
  match place with
  | .file _ => .error .notDirectory
  | directory =>
      if name = "" || name = "." then .ok directory
      else if name = ".." then .ok .above
      else if name.utf8ByteSize > longestName then .error .nameTooLong
      else match directory, d.file? name with
        | .here, some bytes => .ok (.file bytes)
        | _, _ => .error .missing

/-- The bytes of the file to which a path leads. -/
def read (d : Directory) (path : String) : Except ReadError ByteArray := do
  if path.utf8ByteSize > longestPath then throw .nameTooLong
  let start := if path.startsWith "/" then Place.above else Place.here
  match ← (path.splitOn "/").foldlM d.follow start with
  | .file bytes => pure bytes
  | _ => throw .isDirectory

end Directory

end LoxLexer
