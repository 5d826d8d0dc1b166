import PrefixSearch.Encoding
import PrefixSearch.Failure

/-!
# From an entry list to search data

The entry list is read and resolved, its entries are indexed, and the frozen index is written as a
binary file and as a script.
-/

namespace PrefixSearch

variable {m : Type → Type} [Monad m] [FileStore m]

/-- Go on with the value, or fail with a fault that `failure` puts into words. -/
def orFail {ε α : Type} (failure : ε → Failure) (result : Except ε α) : ExceptT Failure m α :=
  match result with
  | .ok a => pure a
  | .error fault => throw (failure fault)

/-- What a build has written. -/
structure BuildSummary where
  binaryPath : String
  scriptPath : String
  /-- The number of entries that were indexed. -/
  entries : Nat
  /-- The number of records that were skipped. -/
  skipped : Nat
  /-- The size of the binary file. -/
  bytes : Nat
deriving DecidableEq, Repr

/-- The index of a list of entries. -/
def Index.build [Search] (config : Config) (inParts : Bool) (entries : List Entry) :
    Except IndexError Index :=
  if inParts then buildInParts config entries else (empty config).addAll entries

/-- Read a configuration file. -/
def readConfig (path : String) : ExceptT Failure m Config := do
  match ← FileStore.openPath (m := m) path with
  | .error fault => throw (.badConfig path (some fault))
  | .ok .folder => throw (.badConfig path (some .isAFolder))
  | .ok (.file bytes) =>
      match Config.parse? bytes with
      | some config => return config
      | none => throw (.badConfig path none)

/-- Read an entry list. -/
def readEntries (path : String) : ExceptT Failure m (List EntryRecord) := do
  match ← orFail (.openFailed path) (← FileStore.openPath (m := m) path) with
  | .folder => throw (.badEntries path)
  | .file bytes =>
      match EntryRecord.parseList? bytes with
      | some records => return records
      | none => throw (.badEntries path)

/-- Write the frozen index into a folder, as a binary file and as a script. -/
def writeSearchData (folder : String) (frozen : Frozen) : ExceptT Failure m (String × String) := do
  let binaryPath := Path.join folder frozen.config.binaryName
  let scriptPath := Path.join folder frozen.config.scriptName
  let data := frozen.encode
  orFail (.writeFailed folder) (← FileStore.makeFolders (m := m) folder)
  orFail (.writeFailed folder) (← FileStore.writeFile (m := m) binaryPath data)
  orFail (.writeFailed folder)
    (← FileStore.writeFile (m := m) scriptPath (Text.utf8 (Script.encode data)))
  return (binaryPath, scriptPath)

/-- Build the search data of an entry list. -/
def buildFromFile (input folder : String) (config : Config) (inParts : Bool) :
    ExceptT Failure m BuildSummary := do
  let records ← readEntries input
  let resolution ← orFail .record (resolveRecords records)
  let index ← orFail .index (Index.build config inParts resolution.entries.toList)
  let frozen ← orFail .capacity index.finalize
  let (binaryPath, scriptPath) ← writeSearchData folder frozen
  return {
    binaryPath, scriptPath
    entries := resolution.entries.size
    skipped := resolution.skipped
    bytes := frozen.layout.totalSize }

end PrefixSearch
