import PrefixSearch.Decoder
import PrefixSearch.Files.Store
import PrefixSearch.Frozen
import PrefixSearch.Records

/-!
# Why a command fails

What a command was doing when it failed, and what went wrong.
-/

namespace PrefixSearch

inductive Failure where
  | openFailed (path : String) (cause : FileError)
  /-- The file is no entry list. -/
  | badEntries (path : String)
  /-- There is no such file, or it is no configuration. -/
  | badConfig (path : String) (cause : Option FileError)
  | record (fault : RecordFault)
  | index (fault : IndexError)
  | capacity (fault : CapacityExceeded)
  | writeFailed (folder : String) (cause : FileError)
  | file (cause : FileError)
  /-- The script has no search data in it. -/
  | noData (path : String)
  | unreadable (path : String) (cause : DecodeError)
  | corrupt (fault : Corruption)
deriving DecidableEq, Repr

/-- What failed, and why, outermost first. -/
def Failure.chain : Failure → List String
  | .openFailed path cause => [s!"Failed to open {path}", cause.message]
  | .badEntries path => [s!"Failed to parse entries from {path}"]
  | .badConfig path cause =>
      s!"Failed to load config {path}" ::
        (match cause with
          | some fault => [fault.message]
          | none => [])
  | .record fault => [fault.message]
  | .index fault => [fault.message]
  | .capacity fault => [fault.message]
  | .writeFailed folder cause => [s!"Failed to write search data to {folder}", cause.message]
  | .file cause => [cause.message]
  | .noData path => [s!"{path} does not contain search data"]
  | .unreadable path cause => [s!"Failed to read {path}", cause.message]
  | .corrupt fault => [(DecodeError.corrupt fault).message]

end PrefixSearch
