import PrefixSearch.Command.Run

/-!
# The command line

Files are those of the file system, what a command prints goes to standard output, and why it
failed goes to standard error.
-/

namespace PrefixSearch

/-- The fault that the file system reports. -/
def FileError.ofSystem : IO.Error → FileError
  | .noFileOrDirectory .. => .notFound
  | .permissionDenied .. => .notPermitted
  | .alreadyExists .. => .alreadyExists
  | .inappropriateType .. => .notAFolder
  | e => .other (toString e)

/-- The outcome of an action on the file system. -/
def onDisk {α : Type} (action : IO α) : IO (Except FileError α) := do
  match ← action.toBaseIO with
  | .ok a => return .ok a
  | .error e => return .error (.ofSystem e)

instance : FileStore IO where
  openPath path := onDisk do
    if ← (← IO.FS.realPath path).isDir then
      return .folder
    else
      return .file (← IO.FS.readBinFile path).data.toList
  makeFolders path := onDisk (IO.FS.createDirAll path)
  writeFile path bytes := onDisk (IO.FS.writeBinFile path ⟨bytes.toArray⟩)

end PrefixSearch

open PrefixSearch in
/-- Run the command line, giving its exit status. -/
def main (given : List String) : IO UInt32 := do
  match Request.parse? given with
  | none =>
      IO.eprintln "usage: build ENTRIES | query DATA PREFIX... | stats DATA | dump DATA"
      return usageStatus
  | some request =>
      let outcome : Outcome ← request.run
      (← IO.getStdout).putStr outcome.stdout
      match outcome.failure with
      | none => pure ()
      | some failure => IO.eprintln ("Error: " ++ String.intercalate ": " failure.chain)
      return outcome.status
