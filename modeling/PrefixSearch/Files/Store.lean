/-!
# Files

What a command needs of the place where its files are: looking into a file, making a folder with
the folders above it, and writing a file. Paths are texts with slashes between the names.
-/

namespace PrefixSearch

/-- Why a path cannot be used. -/
inductive FileError where
  | notFound
  | notPermitted
  | alreadyExists
  /-- What is at the path cannot be mapped into memory. -/
  | notMappable
  | notAFolder
  | isAFolder
  | nameTooLong
  /-- The path has a NUL in it. -/
  | nulInPath
  /-- The file was to be read as text but is not UTF-8. -/
  | notText
  | other (message : String)
deriving DecidableEq, Repr

def FileError.message : FileError → String
  | .notFound => "No such file or directory (os error 2)"
  | .notPermitted => "Permission denied (os error 13)"
  | .alreadyExists => "File exists (os error 17)"
  | .notMappable => "No such device (os error 19)"
  | .notAFolder => "Not a directory (os error 20)"
  | .isAFolder => "Is a directory (os error 21)"
  | .nameTooLong => "File name too long (os error 36)"
  | .nulInPath => "file name contained an unexpected NUL byte"
  | .notText => "stream did not contain valid UTF-8"
  | .other message => message

/-- What can be opened. -/
inductive Content where
  | file (bytes : List UInt8)
  | folder
deriving DecidableEq, Repr

/-- A place where files are. -/
class FileStore (m : Type → Type) where
  /-- What is at a path. -/
  openPath : String → m (Except FileError Content)
  /-- Make the folder at a path, and those above it, unless they are there. -/
  makeFolders : String → m (Except FileError Unit)
  /-- Write a file, replacing one that is there. -/
  writeFile : String → List UInt8 → m (Except FileError Unit)

namespace Path

/-- The parts between the slashes. -/
def parts (path : String) : List String :=
  path.splitOn "/"

/-- The parts that lead somewhere: neither those between two slashes nor the single points. -/
def names (path : String) : List String :=
  (parts path).filter fun part => part ≠ "" ∧ part ≠ "."

/-- The path of `name` in a folder; a name that begins with a slash stands on its own. -/
def join (folder name : String) : String :=
  if name.startsWith "/" then name
  else if folder = "" || folder.endsWith "/" then folder ++ name
  else folder ++ "/" ++ name

/-- The last name of a path, if it ends with one. -/
def fileName? (path : String) : Option String :=
  match (names path).getLast? with
  | none => none
  | some name => if name = ".." then none else some name

/-- The path from a folder to what a path names in it, beginning with a part that leads somewhere. -/
def within? (folder path : String) : Option String :=
  if (parts folder).isPrefixOf (parts path) then
    let rest := (parts path).drop (parts folder).length
    some (String.intercalate "/" (rest.dropWhile fun part => part = "" ∨ part = "."))
  else
    none

/-- What follows the last point of the last name, unless the name begins with that point. -/
def extension? (path : String) : Option String := do
  let name ← fileName? path
  let reversed := name.toList.reverse
  let stem := (reversed.dropWhile (· ≠ '.')).drop 1
  if stem = [] then none
  else some (String.ofList (reversed.takeWhile (· ≠ '.')).reverse)

end Path

end PrefixSearch
