import PrefixSearch.Files.Store

/-!
# A directory in memory

A working directory that is a value, so that a command can be run without touching a disk. Of what
is outside of it, the folders above it and the root folder are there, and nothing else.
-/

namespace PrefixSearch

/-- The names that lead from the working directory to a file or folder. A location that is not in
the working directory begins with `..` for every folder that is gone up, or with `/`, which stands
for the root folder. -/
abbrev Location := List String

structure Directory where
  folders : List Location := []
  files : List (Location × List UInt8) := []
deriving DecidableEq, Repr, Inhabited

namespace Directory

/-- The most bytes that a name may have. -/
def nameLimit : Nat := 255

/-- The most bytes that a path may have. -/
def pathLimit : Nat := 4095

/-- The location of the root folder. -/
def root : Location := ["/"]

/-- The location that a path starts from. -/
def start (path : String) : Location :=
  if path.startsWith "/" then root else []

/-- The working directory and the folders above it. -/
def isAbove (place : Location) : Bool :=
  place.all (· = "..")

/-- The working directory, those above it, the folders, and what files are in are folders. -/
def isFolder (d : Directory) (place : Location) : Bool :=
  isAbove place || place = root || d.folders.contains place ||
    d.files.any fun file => place.isPrefixOf file.1 && place ≠ file.1

def file? (d : Directory) (place : Location) : Option (List UInt8) :=
  (d.files.find? (·.1 = place)).map (·.2)

/-- The folder above a folder. The root folder is above itself. -/
def above (place : Location) : Location :=
  if place = root then root
  else if isAbove place then place ++ [".."]
  else place.dropLast

/-- The folder that is reached from a folder by one part of a path. -/
def enter (d : Directory) (place : Location) (part : String) : Except FileError Location :=
  if part = "" ∨ part = "." then .ok place
  else if part = ".." then .ok (above place)
  else if nameLimit < part.utf8ByteSize then .error .nameTooLong
  else
    let inner := place ++ [part]
    if d.isFolder inner then .ok inner
    else if (d.file? inner).isSome then .error .notAFolder
    else .error .notFound

/-- What is wrong with a path whatever there is in the directory. -/
def checkPath (path : String) : Except FileError Unit := do
  if path.contains '\x00' then
    throw .nulInPath
  if pathLimit < path.utf8ByteSize then
    throw .nameTooLong
  if path = "" then
    throw .notFound

/-- Where a path leads, with the last name not looked up: the folder, and the name unless the path
ends with a folder. -/
def locate (d : Directory) (path : String) : Except FileError (Location × Option String) := do
  checkPath path
  let parts := Path.parts path
  let folder ← parts.dropLast.foldlM d.enter (start path)
  match parts.getLast? with
  | some last =>
      if last = "" ∨ last = "." ∨ last = ".." then return (← d.enter folder last, none)
      else if nameLimit < last.utf8ByteSize then throw .nameTooLong
      else return (folder, some last)
  | none => return (folder, none)

/-- What is at a path. -/
def openPath (d : Directory) (path : String) : Except FileError Content := do
  match ← d.locate path with
  | (_, none) => return .folder
  | (folder, some name) =>
      let place := folder ++ [name]
      if d.isFolder place then return .folder
      else
        match d.file? place with
        | some bytes => return .file bytes
        | none => throw .notFound

/-- Enter a folder, which is made if it is not there. Nothing can be made in the root folder. -/
def enterNew (state : Directory × Location) (part : String) :
    Except FileError (Directory × Location) :=
  let (d, place) := state
  match d.enter place part with
  | .ok inner => .ok (d, inner)
  | .error .notFound =>
      if place = root then .error .notPermitted
      else .ok ({ d with folders := (place ++ [part]) :: d.folders }, place ++ [part])
  | .error .notAFolder => .error .alreadyExists
  | .error fault => .error fault

/-- The directory with a folder at a path, whose parent is there. A point at the end of the path
is in the folder before it, which then has to be there too. -/
def makeFolder (d : Directory) (path : String) : Except FileError Directory := do
  let parts := (Path.parts path).filter (· ≠ "")
  let parent ← parts.dropLast.foldlM d.enter (start path)
  match parts.getLast? with
  | some last => return (← enterNew (d, parent) last).1
  | none => return d

/-- The directory with a folder at a path. If the folder alone cannot be made, those above it are
made first. The names count for these, not the points, so that a new folder with a point behind it
is not among them and cannot be made. -/
def makeFolders (d : Directory) (path : String) : Except FileError Directory := do
  if path = "" then
    return d
  checkPath path
  match d.makeFolder path with
  | .error .notFound =>
      let (made, _) ← (Path.names path).dropLast.foldlM enterNew (d, start path)
      made.makeFolder path
  | outcome => outcome

/-- The directory with a file at a path. -/
def writeFile (d : Directory) (path : String) (bytes : List UInt8) :
    Except FileError Directory := do
  match ← d.locate path with
  | (_, none) => throw .isAFolder
  | (folder, some name) =>
      let place := folder ++ [name]
      if d.isFolder place then
        throw .isAFolder
      if folder = root then
        throw .notPermitted
      return { d with files := d.files.filter (·.1 ≠ place) ++ [(place, bytes)] }

/-- Go on with the changed directory, or with the old one if the change is refused. -/
def change (f : Directory → Except FileError Directory) : StateM Directory (Except FileError Unit) :=
  fun d =>
    match f d with
    | .ok changed => (.ok (), changed)
    | .error fault => (.error fault, d)

instance : FileStore (StateM Directory) where
  openPath path := fun d => (d.openPath path, d)
  makeFolders path := change (·.makeFolders path)
  writeFile path bytes := change (·.writeFile path bytes)

end Directory

end PrefixSearch
